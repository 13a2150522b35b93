import SerialisationSolver.Interaction.Returns
import SerialisationSolver.Model.Checked
import SerialisationSolver.Correctness.Enumerators

/-! No check fails. On what a search from the full set reaches, the algorithms with
checks and those without are the same programs. -/
namespace SerialisationSolver.Checked

open Interaction Interaction.Program

section Vectors

variable {Item : Type} {items : List Item} {i : Nat}

/-- An access in range is what an access without a check is, whatever the default of
the latter. -/
theorem load_eq (h : i < items.length) (default : Item) :
    load items i = pure (items.getD i default) := by
  simp [load, h]

theorem store_eq (h : i < items.length) (item : Item) :
    store items i item = pure (items.set i item) :=
  if_pos h

/-- Copying one entry after the other replaces the beginning of the copy and leaves
its end as it was. -/
theorem foldl_copy (items copy : List Item) (default : Item) (n : Nat) (hItems : n ≤ items.length)
    (hCopy : n ≤ copy.length) :
    (List.range n).foldl (fun copy i => copy.set i (items.getD i default)) copy =
      items.take n ++ copy.drop n := by
  induction n with
  | zero => simp
  | succ n ih =>
      have hLess : n < items.length := by omega
      have hLess' : n < copy.length := by omega
      have hHere : n - (items.take n).length = 0 := by simp [Nat.min_eq_left hLess.le]
      have hEntry : items.getD n default = items[n] := by simp [hLess]
      rw [List.range_succ, List.foldl_append, ih (by omega) (by omega), List.foldl_cons,
        List.foldl_nil,
        List.set_append_right _ _ (by simp), hHere, hEntry, List.drop_eq_getElem_cons hLess',
        List.set_cons_zero, List.take_succ_eq_append_getElem hLess, List.append_assoc]
      rfl

/-- A loop that stores one entry after the other at places in range is the fold
without checks. The size does not change on the way. -/
theorem forIn_store {places : List Nat} {n : Nat} (hPlaces : ∀ i ∈ places, i < n) {copy : List Item}
    (hCopy : copy.length = n) (value : Nat → Item)
    {body : Nat → List Item → M (ForInStep (List Item))}
    (hBody : ∀ i ∈ places, ∀ copy, body i copy = store copy i (value i) >>=
      fun copy => pure (.yield copy)) :
    forIn places copy body = pure (places.foldl (fun copy i => copy.set i (value i)) copy) := by
  apply forIn_eq_foldl _ (fun copy => copy.length = n) hCopy
  intro i hi copy hCopy
  rw [hBody i hi, store_eq (hCopy.symm ▸ hPlaces i hi), pure_bind]
  exact ⟨rfl, by rw [List.length_set, hCopy]⟩

theorem extend_eq (sequence : Sequence) (set : List Nat) :
    extend sequence set = pure (sequence ++ [set]) := by
  have hLength : (List.replicate (sequence.length + 1) ([] : List Nat)).length =
      sequence.length + 1 :=
    List.length_replicate
  have hPlaces : ∀ i ∈ List.range sequence.length, i < sequence.length + 1 := fun i hi =>
    Nat.lt_succ_of_lt (List.mem_range.mp hi)
  rw [extend, forIn_store hPlaces hLength (fun i => sequence.getD i []), pure_bind,
    foldl_copy sequence _ [] sequence.length le_rfl (by simp)]
  · dsimp only
    rw [store_eq (by simp)]
    simp
  · intro i hi copy
    dsimp only
    rw [load_eq (List.mem_range.mp hi) [], pure_bind]

end Vectors

section Reduct

variable {af : AF} (h : af.WellFormed)
include h

theorem load_attackers {a : Nat} (ha : a < af.args) :
    load af.attackers a = pure (af.attackersOf a) :=
  load_eq (h.attackers_length ▸ ha) []

theorem load_attacked {a : Nat} (ha : a < af.args) : load af.attacked a = pure (af.attackedBy a) :=
  load_eq (h.attacked_length ▸ ha) []

/-- First loop of `get_reduct`: the given arguments and what they attack are places
of the marks. -/
theorem markRemoved_eq {arguments : List Nat} (hRange : ∀ a ∈ arguments, a < af.args) :
    markRemoved af arguments = pure (SerialisationSolver.markRemoved af arguments) := by
  rw [markRemoved, forIn_eq_foldl (fun bits arg1 =>
    (af.attackedBy arg1).foldl (fun bits arg2 => bits.set arg2 1) (bits.set arg1 1))
    (fun bits => bits.length = af.args) List.length_replicate, pure_bind]
  · rfl
  · intro arg1 hArg1 bits hBits
    have hLess := hRange arg1 hArg1
    have hMarked : (bits.set arg1 1).length = af.args := by rw [List.length_set, hBits]
    dsimp only
    rw [store_eq (by omega), pure_bind, load_attacked h hLess, pure_bind,
      forIn_store (h.attacked_lt arg1) hMarked (fun _ => 1) fun _ _ _ => rfl, pure_bind]
    exact ⟨rfl, by rw [foldl_set_length fun _ => 1, hMarked]⟩

omit h in
/-- Second loop of `get_reduct`: the marks have a place for each active argument,
whatever they say. -/
theorem flipMarks_eq {array : List Nat} {marks : List UInt8}
    (hArray : ∀ a ∈ array, a < marks.length) :
    flipMarks array marks = pure (SerialisationSolver.flipMarks array marks) := by
  rw [flipMarks]
  dsimp only
  rw [forIn_eq_foldl (fun (acc : List Nat × List UInt8) arg =>
    if acc.2.getD arg 0 = 0 then (acc.1 ++ [arg], acc.2.set arg 1) else (acc.1, acc.2.set arg 0))
    (fun acc => acc.2.length = marks.length) rfl, pure_bind]
  · rfl
  · rintro arg hArg ⟨reductArray, bits⟩ hBits
    have hLess : arg < bits.length := hBits ▸ hArray arg hArg
    dsimp only
    rw [load_eq hLess 0, pure_bind, store_eq hLess, store_eq hLess, pure_bind, pure_bind]
    split_ifs
    · exact ⟨rfl, by rw [List.length_set, hBits]⟩
    · exact ⟨rfl, by rw [List.length_set, hBits]⟩

/-- With both loops, `get_reduct` passes its checks for any set of active arguments. -/
theorem getReduct_eq {active : IterableBitSet} (hValid : active.Valid af) {set : List Nat}
    (hSet : ∀ a ∈ set, a ∈ active.array) :
    getReduct af active set = pure (SerialisationSolver.getReduct af active set) := by
  have hRange : ∀ a ∈ set, a < af.args := fun a ha => hValid.lt_args a (hSet a ha)
  have hMarks : ∀ a ∈ active.array, a < (SerialisationSolver.markRemoved af set).length := by
    rw [markRemoved_length]
    exact hValid.lt_args
  rw [getReduct, markRemoved_eq h hRange, pure_bind, flipMarks_eq hMarks, pure_bind]
  rfl

end Reduct

section Bits

variable {af : AF} {active : IterableBitSet} (hReached : Reached af active)
include hReached

theorem load_bit {a : Nat} (ha : a < af.args) :
    load active.bitset a = pure (active.bitset.getD a 0) :=
  load_eq (hReached.length.symm ▸ ha) 0

/-- The loop with its `break` finds whether some attacker has its bit set. The
attackers of an argument are arguments, so that their bits can be read. -/
theorem isAttacked_eq (h : af.WellFormed) {arg : Nat} (hArg : arg < af.args) :
    isAttacked af active arg = pure (SerialisationSolver.isAttacked af active arg) := by
  rw [isAttacked, load_attackers h hArg, pure_bind, forIn_eq_any (p := active.test), pure_bind]
  · rfl
  · intro att hAtt
    rw [load_bit hReached (h.attackers_lt att arg hAtt), pure_bind]
    rfl

/-- The vector of attackers has the size of the framework, and the attackers of a
set are in range. -/
theorem activeAttackers_eq (h : af.WellFormed) {set : List Nat} (hSet : ∀ a ∈ set, a < af.args) :
    activeAttackers af active set = pure (SerialisationSolver.activeAttackers af active set) := by
  rw [activeAttackers, forIn_eq_foldl (fun bits arg =>
    (af.attackersOf arg).foldl (fun bits att => bits.set att (active.bitset.getD att 0)) bits)
    (fun bits => bits.length = af.args) List.length_replicate, pure_bind]
  · rfl
  · intro arg hArg bits hBits
    have hSources : ∀ att ∈ af.attackersOf arg, att < af.args :=
      fun att hAtt => h.attackers_lt att arg hAtt
    dsimp only
    rw [load_attackers h (hSet arg hArg), pure_bind,
      forIn_store hSources hBits (fun att => active.bitset.getD att 0), pure_bind]
    · exact ⟨rfl, by rw [foldl_set_length fun att => active.bitset.getD att 0, hBits]⟩
    · intro att hAtt copy
      rw [load_bit hReached (hSources att hAtt), pure_bind]

omit hReached in
/-- The vector keeps its size, as only single entries of it are replaced. -/
theorem activeAttackers_length (set : List Nat) :
    (SerialisationSolver.activeAttackers af active set).length = af.args := by
  suffices hAny : ∀ bits : List UInt8, bits.length = af.args → (set.foldl (fun bits arg =>
      (af.attackersOf arg).foldl (fun bits att => bits.set att
        (active.bitset.getD att 0)) bits) bits).length =
        af.args from hAny _ List.length_replicate
  induction set with
  | nil => exact fun bits hBits => hBits
  | cons arg set ih =>
      intro bits hBits
      apply ih
      rw [foldl_set_length fun att => active.bitset.getD att 0, hBits]

/-- The two loops with their `break`s: the outer one is left as soon as the inner
one has found a member that attacks. -/
theorem isChallenged_eq (h : af.WellFormed) {sets : List (List Nat)}
    (hSets : ∀ set ∈ sets, ∀ a ∈ set, a < af.args) {set : List Nat} (hSet : set ∈ sets) :
    isChallenged af active sets set =
      pure (SerialisationSolver.isChallenged af active sets set) := by
  have hLength : (SerialisationSolver.activeAttackers af active set).length = af.args :=
    activeAttackers_length set
  rw [isChallenged, activeAttackers_eq hReached h (hSets set hSet), pure_bind, forIn_eq_any
    (p := fun set2 => set2.any fun arg =>
      (SerialisationSolver.activeAttackers af active set).getD arg 0 != 0),
    pure_bind]
  · rfl
  · intro set2 hSet2
    dsimp only
    rw [forIn_eq_any
      (p := fun arg => (SerialisationSolver.activeAttackers af active set).getD arg 0 != 0),
      pure_bind]
    · generalize (set2.any fun arg => _) = found
      cases found with
      | true => rfl
      | false => rfl
    · intro arg hArg
      rw [load_eq (hLength.symm ▸ hSets set2 hSet2 arg hArg) 0, pure_bind]

end Bits

section Sized

variable {af : AF} {active : IterableBitSet} {s : CadicalSatSolver}

/-- The vector `model` has a place for each argument, and so has every vector that
`solve` puts in its place, since its loop counts up to `decision_vars`. -/
def Sized (af : AF) (s : CadicalSatSolver) : Prop :=
  s.model.length = af.args ∧ s.decisionVars.toNat = af.args

/-- Adding a clause leaves the vector alone, whatever the literals are. -/
theorem addClause_sized (hSized : Sized af s) (clause : Satisfiability.Clause) :
    (s.addClause clause).Returns (Sized af) := by
  apply (returns_true _).bind
  intro solver _
  apply (returns_true _).bind
  intro solver' _
  exact returns_pure hSized

theorem addClause2_sized (hSized : Sized af s) (lit1 lit2 : Int) :
    (s.addClause2 lit1 lit2).Returns (Sized af) := by
  rw [CadicalSatSolver.addClause2_eq_addClause]
  exact addClause_sized hSized _

theorem assume_sized (hSized : Sized af s) (lit : Int) : (s.assume lit).Returns (Sized af) := by
  apply (returns_true _).bind
  intro solver _
  exact returns_pure hSized

/-- Where a model is found the vector is replaced by one of the same size; where
none is found it stays as it is. -/
theorem solve_sized (hSized : Sized af s) : s.solve.Returns fun out => Sized af out.2 := by
  apply (returns_true _).bind
  rintro ⟨sat, solver⟩ -
  dsimp only
  split_ifs
  · exact returns_fail _
  · exact returns_fail _
  · apply (Returns.mapM_length fun (i : Nat) => solver.val (i + 1)).bind
    intro vals hVals
    have hLength : (vals.map fun v => decide (0 < v)).length = af.args := by
      rw [List.length_map, hVals, List.length_range, hSized.2]
    exact returns_pure ⟨hLength, hSized.2⟩
  · exact returns_pure hSized

/-- The minimisation clause and the assumptions leave the vector alone. -/
theorem excludeModel_sized (hSized : Sized af s) :
    (SerialisationSolver.excludeModel af active s).Returns (Sized af) := by
  refine Returns.bind (P := fun acc => Sized af acc.1) (.forIn hSized ?_) ?_
  · intro arg acc hAcc
    dsimp only
    split_ifs
    · exact returns_pure hAcc
    · apply (assume_sized hAcc _).bind
      intro next hNext
      exact returns_pure hNext
  · intro acc hAcc
    exact addClause_sized hAcc _

/-- Through the inner loop the vector keeps its size, however many models are found.
The induction is on the fuel. -/
theorem minimizeModel_sized (fuel : Nat) (hSized : Sized af s) (foundExtension : Bool) :
    (SerialisationSolver.minimizeModel af active fuel s foundExtension).Returns
      fun out => Sized af out.1 := by
  induction fuel generalizing s foundExtension with
  | zero => exact returns_fail _
  | succ fuel ih =>
      apply (solve_sized hSized).bind
      rintro ⟨sat, solver⟩ hSolver
      dsimp only
      split_ifs
      · exact returns_pure hSolver
      · apply (excludeModel_sized hSolver).bind
        intro next hNext
        exact ih hNext true

/-- The encoding adds clauses only. The outer loop is over the active arguments, the
inner one over the attackers of one of them. -/
theorem admissibleNonempty_sized (hSized : Sized af s) :
    (SerialisationSolver.admissibleNonempty af active s).Returns (Sized af) := by
  refine Returns.bind (P := fun acc => Sized af acc.1) (.forIn hSized ?_) ?_
  · intro arg acc hAcc
    apply (addClause2_sized hAcc _ _).bind
    intro solver hSolver
    refine Returns.bind (P := fun acc => Sized af acc.1) (.forIn hSolver ?_) ?_
    · intro attacker acc hAcc
      dsimp only
      split_ifs
      · apply (addClause2_sized hAcc _ _).bind
        intro next hNext
        exact returns_pure hNext
      · exact returns_pure hAcc
    · intro acc hAcc
      apply (addClause_sized hAcc _).bind
      intro next hNext
      exact returns_pure hNext
  · intro acc hAcc
    exact addClause_sized hAcc _

end Sized

section InitialSets

variable {af : AF} {active : IterableBitSet} (hReached : Reached af active)
include hReached

/-- The encoding reads the attackers of active arguments and the bits of these
attackers, which are all in range. -/
theorem admissibleNonempty_eq (h : af.WellFormed) (s : CadicalSatSolver) :
    admissibleNonempty af active s = SerialisationSolver.admissibleNonempty af active s := by
  unfold admissibleNonempty SerialisationSolver.admissibleNonempty
  refine congrArg (· >>= _) (forIn_congr fun arg hArg acc => ?_)
  dsimp only
  apply bind_congr
  intro solver
  rw [load_attackers h (hReached.valid.lt_args arg hArg), pure_bind]
  refine congrArg (· >>= _) (forIn_congr fun attacker hAttacker acc => ?_)
  rw [load_bit hReached (h.attackers_lt attacker arg hAttacker), pure_bind]
  rfl

theorem load_model {s : CadicalSatSolver} (hSized : Sized af s) {arg : Nat}
    (hArg : arg ∈ active.array) :
    load s.model arg = pure (s.accepts arg) :=
  load_eq (hSized.1.symm ▸ hReached.valid.lt_args arg hArg) false

/-- The model has an entry for each active argument, so that reading it passes the
checks. -/
theorem excludeModel_eq {s : CadicalSatSolver} (hSized : Sized af s) :
    excludeModel af active s = SerialisationSolver.excludeModel af active s := by
  unfold excludeModel SerialisationSolver.excludeModel
  refine congrArg (· >>= _) (forIn_congr fun arg hArg acc => ?_)
  dsimp only
  rw [load_model hReached hSized hArg, pure_bind]

theorem extensionOf_eq {s : CadicalSatSolver} (hSized : Sized af s) :
    extensionOf active s = pure (active.array.filter s.accepts) := by
  rw [extensionOf, forIn_eq_foldl
    (fun extension arg => if s.accepts arg then extension ++ [arg] else extension)
    (fun _ => True) trivial, pure_bind]
  · rw [← List.foldl_filter, List.foldl_append_eq_append (f := fun arg => [arg])]
    simp [← List.flatMap_def]
  · intro arg hArg extension _
    dsimp only
    rw [load_model hReached hSized hArg, pure_bind]
    split_ifs <;> exact ⟨rfl, trivial⟩

/-- The inner loop, with a vector that keeps its size from one pass to the next. -/
theorem minimizeModel_eq (fuel : Nat) {s : CadicalSatSolver} (hSized : Sized af s)
    (foundExtension : Bool) :
    minimizeModel af active fuel s foundExtension =
      SerialisationSolver.minimizeModel af active fuel s foundExtension := by
  induction fuel generalizing s foundExtension with
  | zero => rfl
  | succ fuel ih =>
      rw [minimizeModel, SerialisationSolver.minimizeModel]
      refine (solve_sized hSized).bind_congr ?_
      rintro ⟨sat, solver⟩ hSolver
      dsimp only
      split_ifs
      · rfl
      · rw [excludeModel_eq hReached hSolver]
        exact (excludeModel_sized hSolver).bind_congr fun next hNext => ih hNext true

/-- The outer loop; a set that is collected from the model is the filter of the
array. -/
theorem enumerateModels_eq (fuel : Nat) {s : CadicalSatSolver} (hSized : Sized af s)
    (result : List (List Nat)) : enumerateModels af active fuel s result =
      SerialisationSolver.enumerateModels af active fuel s result := by
  induction fuel generalizing s result with
  | zero => rfl
  | succ fuel ih =>
      rw [enumerateModels, SerialisationSolver.enumerateModels,
        minimizeModel_eq hReached (fuel + 1) hSized]
      refine (minimizeModel_sized (fuel + 1) hSized false).bind_congr ?_
      rintro ⟨solver, foundExtension⟩ hSolver
      dsimp only
      split_ifs
      · rw [extensionOf_eq hReached hSolver, pure_bind]
        exact congrArg (_ >>= ·) (funext fun _ => ih hSolver _)
      · rfl

/-- `enumerate_initial` passes its checks on every set that is reached, for every
framework that is well-formed. -/
theorem enumerateInitial_eq (h : af.WellFormed) (fuel : Nat) :
    enumerateInitial fuel af active = SerialisationSolver.enumerateInitial fuel af active := by
  unfold enumerateInitial SerialisationSolver.enumerateInitial
  split_ifs
  · rfl
  · by_cases hArgs : af.args < 2 ^ 31
    · rw [new_eq hArgs, pure_bind, pure_bind, admissibleNonempty_eq hReached h]
      have hSized : Sized af ⟨Cadical.Solver.new, af.args, List.replicate af.args false⟩ :=
        ⟨List.length_replicate, Int.toNat_natCast _⟩
      exact (admissibleNonempty_sized hSized).bind_congr fun s hSized =>
        enumerateModels_eq hReached fuel hSized []
    · rw [new_fails h.args_lt (by omega), fail_bind, fail_bind]

end InitialSets

section Enumerators

variable {af : AF} {active : IterableBitSet} {Flag : Type}

/-- Whatever the solver answers, the sets that are returned hold active arguments.
The checks of the enumerators rely on this. -/
theorem enumerateInitial_returns (fuel : Nat) :
    (SerialisationSolver.enumerateInitial fuel af active).Returns
    fun sets => ∀ set ∈ sets, ∀ a ∈ set, a ∈ active.array := by
  refine ⟨(enumerateInitial_draws fuel).mono fun out trace hDraws sets hOut => ?_⟩
  exact hDraws.2 sets hOut

variable (h : af.WellFormed)
include h

/-- The loop over the sets of `enumerate_initial`: two bodies that agree on sets of
active arguments make equal programs, the rest of the call included. -/
theorem forIn_sets (hReached : Reached af active) (fuel : Nat) (init : Flag)
    {body body' : List (List Nat) → List Nat → Flag → M (ForInStep Flag)} {rest : Flag → M Unit}
    (hBody : ∀ sets, (∀ set ∈ sets, ∀ a ∈ set, a ∈ active.array) → ∀ set ∈ sets, ∀ flag,
      body sets set flag = body' sets set flag) :
    (enumerateInitial fuel af active >>= fun sets => forIn sets init (body sets) >>= rest) =
      (SerialisationSolver.enumerateInitial fuel af active >>= fun sets =>
        forIn sets init (body' sets) >>= rest) := by
  rw [enumerateInitial_eq hReached h]
  refine (enumerateInitial_returns fuel).bind_congr fun sets hSets => ?_
  exact congrArg (· >>= rest) (forIn_congr fun set hSet flag => hBody sets hSets set hSet flag)

/-- Each enumerator with checks is the one without. By induction on the fuel, where
the reduct of a reached set by active arguments is reached again. -/
theorem admissibleFrom_eq (preferred : Bool) (fuel : Nat) (hReached : Reached af active)
    (sequence : Sequence) : enumerateSequencesAdmissibleFrom af preferred fuel active sequence =
      SerialisationSolver.enumerateSequencesAdmissibleFrom af preferred fuel active sequence := by
  induction fuel generalizing active sequence with
  | zero => rfl
  | succ fuel ih =>
      rw [enumerateSequencesAdmissibleFrom, SerialisationSolver.enumerateSequencesAdmissibleFrom]
      apply forIn_sets h hReached
      intro sets hSets set hSet flag
      dsimp only
      rw [extend_eq, pure_bind, getReduct_eq h hReached.valid (hSets set hSet), pure_bind,
        ih (hReached.getReduct h (hSets set hSet))]

theorem completeFrom_eq (fuel : Nat) (hReached : Reached af active) (sequence : Sequence) :
    enumerateSequencesCompleteFrom af fuel active sequence =
      SerialisationSolver.enumerateSequencesCompleteFrom af fuel active sequence := by
  induction fuel generalizing active sequence with
  | zero => rfl
  | succ fuel ih =>
      rw [enumerateSequencesCompleteFrom, SerialisationSolver.enumerateSequencesCompleteFrom]
      apply forIn_sets h hReached
      intro sets hSets set hSet flag
      have hReduct := getReduct_eq h hReached.valid (hSets set hSet)
      have hNext := ih (hReached.getReduct h (hSets set hSet))
      dsimp only
      split_ifs with hSingle
      · obtain ⟨a, rfl⟩ := List.length_eq_one_iff.mp hSingle
        have hFirst : [a].getD 0 0 < af.args :=
          hReached.valid.lt_args a (hSets [a] hSet a List.mem_cons_self)
        rw [load_eq (by simp) 0, pure_bind, isAttacked_eq hReached h hFirst, pure_bind, extend_eq,
          pure_bind, hReduct, pure_bind, hNext]
      · rw [extend_eq, pure_bind, hReduct, pure_bind, hNext]

theorem strongAdmissibleFrom_eq (grounded : Bool) (fuel : Nat) (hReached : Reached af active)
    (sequence : Sequence) :
    enumerateSequencesStrongAdmissibleFrom af grounded fuel active sequence =
      SerialisationSolver.enumerateSequencesStrongAdmissibleFrom af grounded fuel active
        sequence := by
  induction fuel generalizing active sequence with
  | zero => rfl
  | succ fuel ih =>
      rw [enumerateSequencesStrongAdmissibleFrom,
        SerialisationSolver.enumerateSequencesStrongAdmissibleFrom]
      refine congrArg (· >>= _) (forIn_congr fun arg hArg flag => ?_)
      have hSet : ∀ a ∈ [arg], a ∈ active.array := by simpa using hArg
      dsimp only
      rw [isAttacked_eq hReached h (hReached.valid.lt_args arg hArg), pure_bind, extend_eq,
        pure_bind, getReduct_eq h hReached.valid hSet, pure_bind, ih (hReached.getReduct h hSet)]

theorem stableFrom_eq (fuel : Nat) (hReached : Reached af active) (sequence : Sequence) :
    enumerateSequencesStableFrom af fuel active sequence =
      SerialisationSolver.enumerateSequencesStableFrom af fuel active sequence := by
  induction fuel generalizing active sequence with
  | zero => rfl
  | succ fuel ih =>
      rw [enumerateSequencesStableFrom, SerialisationSolver.enumerateSequencesStableFrom]
      split_ifs
      · rfl
      · apply forIn_sets h hReached
        intro sets hSets set hSet flag
        dsimp only
        rw [extend_eq, pure_bind, getReduct_eq h hReached.valid (hSets set hSet), pure_bind,
          ih (hReached.getReduct h (hSets set hSet))]

theorem unchallengedFrom_eq (maximal : Bool) (fuel : Nat) (hReached : Reached af active)
    (sequence : Sequence) : enumerateSequencesUnchallengedFrom af maximal fuel active sequence =
      SerialisationSolver.enumerateSequencesUnchallengedFrom af maximal fuel active sequence := by
  induction fuel generalizing active sequence with
  | zero => rfl
  | succ fuel ih =>
      rw [enumerateSequencesUnchallengedFrom,
        SerialisationSolver.enumerateSequencesUnchallengedFrom]
      apply forIn_sets h hReached
      intro sets hSets set hSet flag
      have hRange : ∀ set ∈ sets, ∀ a ∈ set, a < af.args := fun set hSet a ha =>
        hReached.valid.lt_args a (hSets set hSet a ha)
      dsimp only
      rw [isChallenged_eq hReached h hRange hSet, pure_bind, extend_eq, pure_bind,
        getReduct_eq h hReached.valid (hSets set hSet), pure_bind,
          ih (hReached.getReduct h (hSets set hSet))]

/-- The scan reads what the members of the last set attack, and these are arguments. -/
theorem scanLastSet_eq (argument : Nat) {set : List Nat} (hSet : ∀ a ∈ set, a < af.args) :
    scanLastSet af argument set = pure (SerialisationSolver.scanLastSet af argument set) := by
  induction set with
  | nil => rfl
  | cons arg set ih =>
      rw [List.forall_mem_cons] at hSet
      rw [scanLastSet, SerialisationSolver.scanLastSet, load_attacked h hSet.1, pure_bind,
        ih hSet.2]
      split_ifs
      · rfl
      · rfl
      · rfl

/-- The scan at the start of a call looks at the last set if there is one, and the
empty set is scanned without a result. -/
theorem scanSequence_eq (argument : Nat) {sequence : Sequence}
    (hSequence : ∀ set ∈ sequence, ∀ a ∈ set, a < af.args) : scanSequence af argument sequence =
      pure (SerialisationSolver.scanLastSet af argument (sequence.getLastD [])) := by
  cases sequence using List.reverseRecOn with
  | nil => rfl
  | append_singleton sequence set =>
      have hSet : ∀ a ∈ set, a < af.args := hSequence set (by simp)
      have hLast : (sequence ++ [set]).getD ((sequence ++ [set]).length - 1) [] = set := by simp
      rw [scanSequence, if_neg (by simp), load_eq (by simp) [], pure_bind, hLast,
        scanLastSet_eq h argument hSet, List.getLastD_concat]

/-- The goal-directed search needs to know that the sets of its sequence hold
arguments, since it reads the framework at their members. -/
theorem argumentAdmissibleFrom_eq (argument : Nat) (fuel : Nat) (hReached : Reached af active)
    {sequence : Sequence} (hSequence : ∀ set ∈ sequence, ∀ a ∈ set, a < af.args) :
    sequencesArgumentAdmissibleFrom af argument fuel active sequence =
      SerialisationSolver.sequencesArgumentAdmissibleFrom af argument fuel active sequence := by
  induction fuel generalizing active sequence with
  | zero => rfl
  | succ fuel ih =>
      rw [sequencesArgumentAdmissibleFrom, SerialisationSolver.sequencesArgumentAdmissibleFrom,
        scanSequence_eq h argument hSequence, pure_bind]
      rcases SerialisationSolver.scanLastSet af argument (sequence.getLastD []) with _ | (_ | _)
      · apply forIn_sets h hReached
        intro sets hSets set hSet flag
        have hNext : ∀ other ∈ sequence ++ [set], ∀ a ∈ other, a < af.args := by
          refine List.forall_mem_append.mpr ⟨hSequence,
            List.forall_mem_singleton.mpr fun a ha => ?_⟩
          exact hReached.valid.lt_args a (hSets set hSet a ha)
        dsimp only
        rw [extend_eq, pure_bind, getReduct_eq h hReached.valid (hSets set hSet), pure_bind,
          ih (hReached.getReduct h (hSets set hSet)) hNext]
      · rfl
      · rfl

end Enumerators

/-! The algorithms without checks read a default value where a vector is too short, so
that none of them ends with `outOfRange`. Each proof follows the body of its function:
`bind` for a statement and what comes after it, `forIn` for a loop, `ite` for a branch. -/
section Unchecked

variable {admits : Satisfiability.Query → Satisfiability.Answer → Prop} {af : AF}
  {active : IterableBitSet}

/-- All that can go wrong in `add` is the literal. -/
theorem solver_add_avoids (s : Cadical.Solver) (lit : Int) :
    Avoids admits .outOfRange (s.add lit : M _) := by
  rw [Cadical.Solver.add]
  apply Avoids.ite
  · exact avoids_pure _
  · apply Avoids.ite
    · exact avoids_pure _
    · exact avoids_fail.mpr (by decide)

theorem solver_assume_avoids (s : Cadical.Solver) (lit : Int) :
    Avoids admits .outOfRange (s.assume lit : M _) := by
  rw [Cadical.Solver.assume]
  apply Avoids.ite
  · exact avoids_pure _
  · exact avoids_fail.mpr (by decide)

theorem solver_val_avoids (s : Cadical.Solver) (lit : Int) :
    Avoids admits .outOfRange (s.val lit : M Int) := by
  rw [Cadical.Solver.val]
  apply Avoids.ite
  · exact avoids_pure _
  · exact avoids_fail.mpr (by decide)

theorem solver_solve_avoids (s : Cadical.Solver) :
    Avoids admits .outOfRange (s.solve : M (Int × Cadical.Solver)) := by
  rw [Cadical.Solver.solve]
  apply Avoids.ite
  · exact avoids_fail.mpr (by decide)
  · apply (avoids_request _).bind
    intro answer
    exact avoids_pure _

/-- A clause is added literal by literal, and then the zero that ends it. -/
theorem addClause_avoids (s : CadicalSatSolver) (clause : Satisfiability.Clause) :
    Avoids admits .outOfRange (s.addClause clause) := by
  rw [CadicalSatSolver.addClause]
  apply Avoids.bind
  · apply Avoids.forIn
    intro lit _ solver
    apply (solver_add_avoids solver lit).bind
    intro next
    exact avoids_pure _
  · intro solver
    apply (solver_add_avoids solver 0).bind
    intro next
    exact avoids_pure _

theorem addClause2_avoids (s : CadicalSatSolver) (lit1 lit2 : Int) :
    Avoids admits .outOfRange (s.addClause2 lit1 lit2) := by
  rw [CadicalSatSolver.addClause2_eq_addClause]
  exact addClause_avoids s _

theorem assume_avoids (s : CadicalSatSolver) (lit : Int) :
    Avoids admits .outOfRange (s.assume lit) := by
  rw [CadicalSatSolver.assume]
  apply (solver_assume_avoids s.solver lit).bind
  intro solver
  exact avoids_pure _

/-- The method `solve` can exit, and its counter can run over, but it reads the
model through `val` only. -/
theorem solve_avoids (s : CadicalSatSolver) : Avoids admits .outOfRange s.solve := by
  rw [CadicalSatSolver.solve]
  apply (solver_solve_avoids s.solver).bind
  rintro ⟨sat, solver⟩
  apply Avoids.ite
  · exact avoids_fail.mpr (by decide)
  · apply Avoids.ite
    · apply Avoids.ite
      · exact avoids_fail.mpr (by decide)
      · apply (Avoids.mapM fun (i : Nat) => solver_val_avoids solver (i + 1)).bind
        intro vals
        exact avoids_pure _
    · exact avoids_pure _

/-- The encoding: an outer loop over the active arguments and an inner one over
their attackers, with clauses added in both. -/
theorem admissibleNonempty_avoids (s : CadicalSatSolver) :
    Avoids admits .outOfRange (SerialisationSolver.admissibleNonempty af active s) := by
  rw [SerialisationSolver.admissibleNonempty]
  apply Avoids.bind
  · apply Avoids.forIn
    intro arg _ acc
    apply (addClause2_avoids _ _ _).bind
    intro solver
    apply Avoids.bind
    · apply Avoids.forIn
      intro attacker _ acc
      apply Avoids.ite
      · apply (addClause2_avoids _ _ _).bind
        intro next
        exact avoids_pure _
      · exact avoids_pure _
    · intro acc
      apply (addClause_avoids _ _).bind
      intro next
      exact avoids_pure _
  · intro acc
    exact addClause_avoids _ _

theorem excludeModel_avoids (s : CadicalSatSolver) :
    Avoids admits .outOfRange (SerialisationSolver.excludeModel af active s) := by
  rw [SerialisationSolver.excludeModel]
  apply Avoids.bind
  · apply Avoids.forIn
    intro arg _ acc
    apply Avoids.ite
    · exact avoids_pure _
    · apply (assume_avoids _ _).bind
      intro next
      exact avoids_pure _
  · intro acc
    exact addClause_avoids _ _

/-- The inner loop: a question, and if there is a model, the clause that excludes it
and the next pass. -/
theorem minimizeModel_avoids (fuel : Nat) (s : CadicalSatSolver) (foundExtension : Bool) :
    Avoids admits .outOfRange
      (SerialisationSolver.minimizeModel af active fuel s foundExtension) := by
  induction fuel generalizing s foundExtension with
  | zero => exact avoids_fail.mpr (by decide)
  | succ fuel ih =>
      apply (solve_avoids s).bind
      rintro ⟨sat, solver⟩
      apply Avoids.ite
      · exact avoids_pure _
      · apply (excludeModel_avoids solver).bind
        intro next
        exact ih next true

/-- The outer loop: one set after the other is pushed, until the inner loop finds
none. -/
theorem enumerateModels_avoids (fuel : Nat) (s : CadicalSatSolver) (result : List (List Nat)) :
    Avoids admits .outOfRange (SerialisationSolver.enumerateModels af active fuel s result) := by
  induction fuel generalizing s result with
  | zero => exact avoids_fail.mpr (by decide)
  | succ fuel ih =>
      apply (minimizeModel_avoids (fuel + 1) s false).bind
      rintro ⟨solver, foundExtension⟩
      apply Avoids.ite
      · apply Avoids.log
        exact ih solver _
      · exact avoids_pure _

theorem enumerateInitial_avoids (fuel : Nat) :
    Avoids admits .outOfRange (SerialisationSolver.enumerateInitial fuel af active) := by
  rw [SerialisationSolver.enumerateInitial]
  apply Avoids.ite
  · exact avoids_pure _
  · apply Avoids.bind
    · rw [CadicalSatSolver.new]
      apply Avoids.ite
      · exact avoids_fail.mpr (by decide)
      · exact avoids_pure _
    · intro s
      apply (admissibleNonempty_avoids s).bind
      intro s'
      exact enumerateModels_avoids fuel s' []

/-- A search avoids the fault as soon as the function that finds its sets does: a
call looks at the sequence, loops over the sets, calls itself and may print. -/
theorem search_avoids {Flag : Type} {mode : Mode Flag}
    (hCandidates : ∀ fuel active, Avoids admits .outOfRange (mode.candidates fuel active))
    (fuel : Nat) (active : IterableBitSet) (sequence : Sequence) :
    Avoids admits .outOfRange (search af mode fuel active sequence) := by
  induction fuel generalizing active sequence with
  | zero => exact avoids_fail.mpr (by decide)
  | succ fuel ih =>
      rw [search]
      rcases mode.returns sequence active with _ | (_ | _)
      · apply (hCandidates (fuel + 1) active).bind
        intro sets
        apply Avoids.bind
        · apply Avoids.forIn
          intro set _ flag
          apply Avoids.ite
          · exact avoids_pure _
          · apply Avoids.log
            apply (ih _ _).bind
            intro _
            exact avoids_pure _
        · intro flag
          apply Avoids.ite
          · apply Avoids.log
            exact avoids_pure ()
          · exact avoids_pure ()
      · exact avoids_pure ()
      · apply Avoids.log
        exact avoids_pure ()

end Unchecked

end SerialisationSolver.Checked
