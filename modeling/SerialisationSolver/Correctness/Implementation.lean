import SerialisationSolver.Correctness.Enumerators

/-! Each mode implements its search tree, as long as all literals fit. What an
enumerator prints from the full set of arguments is then what its tree reports. -/
namespace SerialisationSolver

open Interaction Interaction.Program Satisfiability Argumentation

/-- The initial sets of a frame, stale arguments counting as helpers. Each is given
once, by its members in the order of the array. -/
structure InitialSets (af : AF) (active : IterableBitSet) (sets : List (List Nat)) : Prop where
  sublist : ∀ set ∈ sets, set.Sublist active.array
  nodup : (sets.map setOf).Nodup
  mem_iff : ∀ S, S ∈ sets.map setOf ↔ IsInitialWith af.Attacks active.actives active.stales S

section

variable {af : AF} (h : af.WellFormed) {active : IterableBitSet} {sets : List (List Nat)}

theorem InitialSets.drawn (hSets : InitialSets af active sets) {set : List Nat}
    (hSet : set ∈ sets) :
    ∀ a ∈ set, a ∈ active.array := fun _ ha => (hSets.sublist set hSet).subset ha

theorem InitialSets.initial (hSets : InitialSets af active sets) {set : List Nat}
    (hSet : set ∈ sets) :
    IsInitialWith af.Attacks active.actives active.stales (setOf set) :=
  (hSets.mem_iff _).mp (List.mem_map_of_mem hSet)

theorem InitialSets.nonempty (hSets : InitialSets af active sets) {set : List Nat}
    (hSet : set ∈ sets) :
    set ≠ [] := by
  rintro rfl
  obtain ⟨a, ha⟩ := (hSets.initial hSet).nonempty
  simp at ha

/-- No set is given exactly if nothing can be picked in the frame. -/
theorem InitialSets.eq_nil_iff (hSets : InitialSets af active sets) :
    sets = [] ↔ active.frame.Exhausted af.Attacks := by
  constructor
  · rintro rfl S hS
    simpa using (hSets.mem_iff S).mpr hS
  · intro hNone
    apply List.eq_nil_iff_forall_not_mem.mpr
    intro set hSet
    exact hNone _ (hSets.initial hSet)

include h

/-- While the literals fit, only a lack of fuel keeps the initial sets back. A
correct solver is needed for this, and any of them will do. -/
theorem enumerateInitial_returns (hReached : Reached af active) (hSmall : 2 * af.args < 2 ^ 31)
    (fuel : Nat) : Ensures Correct (enumerateInitial fuel af active) (fun out trace =>
      Quiet trace ∧ match out with
        | .ok sets => InitialSets af active sets
        | .error _ => fuel < 2 ^ active.array.length) := by
  refine ((enumerateInitial_of_fit h hReached.valid (hReached.literalsFit hSmall) fuel).and
    (enumerateInitial_draws fuel).of_any).mono ?_
  intro out trace hPost
  obtain ⟨hOut, hQuiet, -⟩ := hPost
  cases out with
  | error fault => exact ⟨hQuiet, hOut.2⟩
  | ok sets => exact ⟨hQuiet, hOut.1, hOut.2.1, hOut.2.2⟩

/-- With a fuel of `2 ^ n` for `n` active arguments the initial sets are returned. -/
theorem enumerateInitial_initialSets (hReached : Reached af active) (hSmall : 2 * af.args < 2 ^ 31)
    {fuel : Nat} (hFuel : 2 ^ active.array.length ≤ fuel) :
    Ensures Correct (enumerateInitial fuel af active) (fun out trace =>
      Quiet trace ∧ ∃ sets, out = .ok sets ∧ InitialSets af active sets) := by
  apply (enumerateInitial_returns h hReached hSmall fuel).mono
  intro out trace hPost
  obtain ⟨hQuiet, hOut⟩ := hPost
  cases out with
  | error fault =>
      have hSpent : fuel < 2 ^ active.array.length := hOut
      omega
  | ok sets => exact ⟨hQuiet, sets, rfl, hOut⟩

omit h in
/-- The test for attackers by their bits is the test of the frame, where stale
attackers count. -/
theorem isAttacked_eq_false_iff (hValid : active.Valid af) (arg : Nat) :
    isAttacked af active arg = false ↔ active.frame.Unattacked af.Attacks arg := by
  have hBit : ∀ b, active.test b = true ↔ b ∈ active.array ∨ b ∈ active.stales := by
    intro b
    have hCovers := hValid.covers b
    rw [IterableBitSet.mem_stales]
    tauto
  rw [isAttacked, List.any_eq_false]
  constructor
  · intro hNone b hb hAttack
    exact hNone b hAttack ((hBit b).mpr hb)
  · intro hFree b hAttack hTest
    exact hFree b ((hBit b).mp hTest) hAttack

end

section Frames

variable {Flag : Type} {af : AF} {mode : Mode Flag} {T : SearchTree (Frame Nat) (Set Nat)}

/-- What a mode over frames has to show when its sets come from `enumerate_initial`:
how it ends without a look at the sets, and what it makes of them otherwise. -/
theorem implements_of_offers (h : af.WellFormed) (hSmall : 2 * af.args < 2 ^ 31)
    (hNext : T.next = Frame.step af.Attacks)
    (hCandidates : mode.candidates = fun fuel active => enumerateInitial fuel af active)
    (hReturns : ∀ active sequence b, Reached af active → mode.returns sequence active = some b →
      (∀ S, ¬ T.kid active.frame S) ∧ (T.reports active.frame ↔ b = true))
    (hOffers : ∀ active sequence sets, Reached af active → mode.returns sequence active = none →
      InitialSets af active sets → mode.Offers T active.frame active sets) :
    mode.Implements af T (fun active _ => active.frame) (fun active _ => Reached af active) where
  valid := fun _ _ hReached => hReached.valid
  returns := hReturns
  candidates := by
    intro active sequence fuel hReached hNone hFuel
    rw [hCandidates]
    apply (enumerateInitial_initialSets h hReached hSmall hFuel).mono
    intro out trace hPost
    obtain ⟨hQuiet, sets, rfl, hSets⟩ := hPost
    exact ⟨hQuiet, sets, rfl, hOffers active sequence sets hReached hNone hSets⟩
  next := by
    intro active sequence set hReached hSet _
    refine ⟨hReached.getReduct h hSet, ?_⟩
    rw [hNext]
    exact getReduct_frame h hReached.valid hSet

/-- A mode that takes all initial sets offers them as the tree does; what remains is
its flag. -/
theorem offers_of_initialSets {active : IterableBitSet} {sets : List (List Nat)}
    (hSets : InitialSets af active sets) {reports : Frame Nat → Prop}
    (hSkips : ∀ set ∈ sets, mode.skips active sets set = false)
    (hPrints :
      mode.prints (sets.foldl (fun flag set => mode.mark active set flag) mode.init) = true ↔
        reports active.frame) :
    mode.Offers (staleTree af.Attacks reports) active.frame active sets where
  nonempty := fun _ hSet => hSets.nonempty hSet
  drawn := fun _ hSet => hSets.drawn hSet
  nodup := hSets.nodup
  kid_iff := by
    intro S
    refine (hSets.mem_iff S).symm.trans (List.mem_map.trans (exists_congr fun set => ?_))
    exact and_congr_right fun hSet => (and_iff_right (hSkips set hSet)).symm
  prints_iff := by
    rw [List.filter_eq_self.mpr fun set hSet => by rw [hSkips set hSet]; rfl]
    exact hPrints

/-- A flag that every pass of a loop lowers tells whether there was a pass. -/
theorem foldl_false_eq_isEmpty {Item : Type} (items : List Item) :
    items.foldl (fun _ _ => false) true = items.isEmpty := by
  cases items with
  | nil => rfl
  | cons item items =>
      rw [List.foldl_cons, List.isEmpty_cons]
      induction items with
      | nil => rfl
      | cons item items ih => exact ih

end Frames

section Modes

variable {af : AF} (h : af.WellFormed) (hSmall : 2 * af.args < 2 ^ 31)
include h hSmall

/-- ES-AD and ES-PR: the flag is up at the end exactly if nothing could be picked. -/
theorem admissibleMode_implements (preferred : Bool) :
    (admissibleMode af preferred).Implements af (admissibleTree af.Attacks (preferred = true))
      (fun active _ => active.frame) (fun active _ => Reached af active) := by
  apply implements_of_offers h hSmall rfl rfl (by rintro _ _ _ _ ⟨⟩)
  intro active sequence sets hReached _ hSets
  apply offers_of_initialSets hSets (fun _ _ => rfl)
  simp only [admissibleMode, foldl_false_eq_isEmpty, Bool.or_eq_true, Bool.not_eq_true',
    List.isEmpty_iff, hSets.eq_nil_iff]
  cases preferred <;> simp

/-- ES-ST: where no argument is active nothing is offered and the sequence is
reported, otherwise the sequence is not. -/
theorem stableMode_implements : (stableMode af).Implements af (stableTree af.Attacks)
    (fun active _ => active.frame) (fun active _ => Reached af active) := by
  refine implements_of_offers h hSmall rfl rfl ?_ ?_
  · intro active sequence b hReached hReturns
    simp only [stableMode] at hReturns
    split_ifs at hReturns with hEmpty
    obtain rfl := Option.some.inj hReturns
    have hActives : active.actives = ∅ := by
      ext a
      simp [List.isEmpty_iff.mp hEmpty]
    refine ⟨fun S hS => ?_, iff_of_true hActives rfl⟩
    obtain ⟨a, ha⟩ := hS.nonempty
    have hIn := hS.admissibleWith.subset ha
    simp [IterableBitSet.frame, hActives] at hIn
  · intro active sequence sets hReached hReturns hSets
    refine offers_of_initialSets hSets (fun _ _ => rfl) (iff_of_false (by simp [stableMode]) ?_)
    simp only [stableMode] at hReturns
    split_ifs at hReturns with hEmpty
    intro hActives
    refine hEmpty (List.isEmpty_iff.mpr (List.eq_nil_iff_forall_not_mem.mpr fun a ha => ?_))
    exact (Set.eq_empty_iff_forall_notMem.mp hActives a) ha

omit h hSmall in
/-- The flag of ES-CO is raised by the unattacked singletons and stays up. -/
private theorem foldl_mark (active : IterableBitSet) (sets : List (List Nat)) (flag : Bool) :
    sets.foldl (fun flag set => (completeMode af).mark active set flag) flag =
      (flag || sets.any fun set => set.length = 1 && !isAttacked af active (set.getD 0 0)) := by
  induction sets generalizing flag with
  | nil => simp
  | cons set sets ih =>
      rw [List.foldl_cons, ih, List.any_cons]
      by_cases hSingle : set.length = 1 <;> simp [completeMode, hSingle, Bool.or_assoc]

/-- ES-CO: an unattacked argument forms an initial set, so that the flag is raised
exactly if there is one. -/
theorem completeMode_implements : (completeMode af).Implements af (completeTree af.Attacks)
    (fun active _ => active.frame) (fun active _ => Reached af active) := by
  apply implements_of_offers h hSmall rfl rfl (by rintro _ _ _ _ ⟨⟩)
  intro active sequence sets hReached _ hSets
  apply offers_of_initialSets hSets (fun _ _ => rfl)
  rw [foldl_mark]
  change (!(false || _)) = true ↔ _
  rw [Bool.false_or, Bool.not_eq_true', List.any_eq_false]
  constructor
  · -- An unattacked argument would be found as a set of its own.
    intro hNone a ha hFree
    obtain ⟨set, hSet, hEq⟩ := List.mem_map.mp ((hSets.mem_iff {a}).mpr (hFree.isInitialWith ha))
    have hMem : ∀ b, b ∈ set ↔ b = a := fun b => Set.ext_iff.mp hEq b
    have hNodup : set.Nodup := hReached.valid.nodup.sublist (hSets.sublist set hSet)
    have hSingle : set = [a] := by
      have hPerm : set.Perm [a] := (List.perm_ext_iff_of_nodup hNodup (by simp)).mpr
        (by simpa using hMem)
      exact List.perm_singleton.mp hPerm
    apply hNone set hSet
    rw [hSingle]
    simpa using (isAttacked_eq_false_iff hReached.valid a).mpr hFree
  · intro hAll set hSet hRaised
    simp only [Bool.and_eq_true, decide_eq_true_eq, Bool.not_eq_true'] at hRaised
    obtain ⟨a, rfl⟩ := List.length_eq_one_iff.mp hRaised.1
    have hFree := (isAttacked_eq_false_iff hReached.valid a).mp (by simpa using hRaised.2)
    exact hAll a (hSets.drawn hSet a (by simp)) hFree

omit hSmall in
/-- ES-SA and ES-GR: the direct scan needs no solver, so nothing is asked of the
literals. -/
theorem strongAdmissibleMode_implements (grounded : Bool) :
    (strongAdmissibleMode af grounded).Implements af (unattackedTree af.Attacks (grounded = true))
      (fun active _ => active.frame) (fun active _ => Reached af active) where
  valid := fun _ _ hReached => hReached.valid
  returns := by rintro _ _ _ _ ⟨⟩
  candidates := by
    intro active sequence fuel hReached _ _
    have hTaken : ∀ S, (unattackedTree af.Attacks (grounded = true)).kid active.frame S ↔
        ∃ set ∈ active.array.map ([·]), isAttacked af active (set.getD 0 0) = false ∧
          setOf set = S := by
      intro S
      simp only [isAttacked_eq_false_iff hReached.valid, List.mem_map]
      constructor
      · intro hKid
        obtain ⟨a, ha, hFree, rfl⟩ := hKid
        exact ⟨[a], ⟨a, ha, rfl⟩, hFree, setOf_singleton a⟩
      · intro hTaken
        obtain ⟨_, ⟨a, ha, rfl⟩, hFree, rfl⟩ := hTaken
        exact ⟨a, ha, hFree, setOf_singleton a⟩
    refine ⟨quiet_nil, active.array.map ([·]), rfl, ?_, ?_, ?_, hTaken, ?_⟩
    · intro set hSet
      obtain ⟨a, _, rfl⟩ := List.mem_map.mp hSet
      simp
    · intro set hSet a ha
      obtain ⟨b, hb, rfl⟩ := List.mem_map.mp hSet
      rw [List.mem_singleton.mp ha]
      exact hb
    · rw [List.map_map]
      apply hReached.valid.nodup.map
      intro a b hEq
      simpa [setOf_singleton] using hEq
    · have hNone : ((active.array.map ([·])).filter fun set => !isAttacked af active
        (set.getD 0 0)) = [] ↔
          ∀ a ∈ active.array, ¬ active.frame.Unattacked af.Attacks a := by
        simp [List.filter_eq_nil_iff, ← isAttacked_eq_false_iff hReached.valid]
      simp only [strongAdmissibleMode, foldl_false_eq_isEmpty, Bool.or_eq_true, Bool.not_eq_true',
        List.isEmpty_iff, hNone]
      cases grounded with
      | true => simp [unattackedTree, IterableBitSet.frame]
      | false => simp [unattackedTree]
  next := fun active sequence set hReached hSet _ =>
    ⟨hReached.getReduct h hSet, getReduct_frame h hReached.valid hSet⟩

omit hSmall in
/-- The vector of attackers marks the active ones among the attackers of the set,
and the stale ones with them. -/
theorem activeAttackers_ne_zero (active : IterableBitSet) (set : List Nat) (x : Nat) :
    (activeAttackers af active set).getD x 0 ≠ 0 ↔
      active.test x = true ∧ ∃ s ∈ set, af.Attacks x s := by
  have hFlat : activeAttackers af active set = (set.flatMap af.attackersOf).foldl
      (fun attackers att => attackers.set att (active.bitset.getD att 0))
        (List.replicate af.args 0) := by
    rw [activeAttackers, List.foldl_flatMap]
  have hMem : x ∈ set.flatMap af.attackersOf ↔ ∃ s ∈ set, af.Attacks x s := List.mem_flatMap
  rw [hFlat, getD_foldl_set fun att => active.bitset.getD att 0, List.length_replicate,
    getD_replicate_zero, IterableBitSet.test, bne_iff_ne]
  constructor
  · intro hNe
    split_ifs at hNe with hBoth
    · exact ⟨hNe, hMem.mp hBoth.1⟩
    · exact absurd rfl hNe
  · intro hBoth
    obtain ⟨hBit, s, hs, hAttack⟩ := hBoth
    rw [if_pos ⟨hMem.mpr ⟨s, hs, hAttack⟩, (h.attacks_lt hAttack).1⟩]
    exact hBit

omit hSmall in
/-- The test of ES-UC is whether a set is unchallenged in its frame, where the
challengers are the initial sets that were found. -/
theorem isChallenged_eq_false_iff {active : IterableBitSet} (hReached : Reached af active)
    {sets : List (List Nat)} (hSets : InitialSets af active sets) (set : List Nat) :
    isChallenged af active sets set = false ↔ active.frame.Unchallenged af.Attacks (setOf set) := by
  have hAny : isChallenged af active sets set = true ↔
      ∃ set2 ∈ sets, ∃ t ∈ set2, ∃ s ∈ set, af.Attacks t s := by
    simp only [isChallenged, List.any_eq_true, bne_iff_ne, activeAttackers_ne_zero h]
    refine exists_congr fun set2 => and_congr_right fun hSet2 => exists_congr fun t => ?_
    exact and_congr_right fun ht =>
      and_iff_right (hReached.valid.covers t (hSets.drawn hSet2 t ht))
  rw [← Bool.not_eq_true, hAny]
  constructor
  · intro hNone T hT t ht s hs hAttack
    obtain ⟨set2, hSet2, rfl⟩ := List.mem_map.mp ((hSets.mem_iff T).mpr hT)
    exact hNone ⟨set2, hSet2, t, ht, s, hs, hAttack⟩
  · intro hFree hChallenge
    obtain ⟨set2, hSet2, t, ht, s, hs, hAttack⟩ := hChallenge
    exact hFree _ (hSets.initial hSet2) t ht s hs hAttack

/-- ES-UC: what is skipped is what the tree does not offer, and the flag tells
whether anything was left. -/
theorem unchallengedMode_implements (maximal : Bool) :
    (unchallengedMode af maximal).Implements af (unchallengedTree af.Attacks (maximal = true))
      (fun active _ => active.frame) (fun active _ => Reached af active) := by
  apply implements_of_offers h hSmall rfl rfl (by rintro _ _ _ _ ⟨⟩)
  intro active sequence sets hReached _ hSets
  have hTaken : ∀ S, (unchallengedTree af.Attacks (maximal = true)).kid active.frame S ↔
      ∃ set ∈ sets, isChallenged af active sets set = false ∧ setOf set = S := by
    intro S
    constructor
    · intro hKid
      obtain ⟨hInitial, hFree⟩ := hKid
      obtain ⟨set, hSet, rfl⟩ := List.mem_map.mp ((hSets.mem_iff S).mpr hInitial)
      exact ⟨set, hSet, (isChallenged_eq_false_iff h hReached hSets set).mpr hFree, rfl⟩
    · intro hTaken
      obtain ⟨set, hSet, hFree, rfl⟩ := hTaken
      exact ⟨hSets.initial hSet, (isChallenged_eq_false_iff h hReached hSets set).mp hFree⟩
  refine ⟨fun _ hSet => hSets.nonempty hSet, fun _ hSet => hSets.drawn hSet, hSets.nodup,
    hTaken, ?_⟩
  have hNone : (sets.filter fun set => !isChallenged af active sets set) = [] ↔
      ∀ S, ¬ (unchallengedTree af.Attacks (maximal = true)).kid active.frame S := by
    simp only [hTaken, List.filter_eq_nil_iff, Bool.not_eq_true', not_exists, not_and]
    exact ⟨fun hAll S set hSet hFree _ => hAll set hSet hFree,
      fun hAll set hSet hFree => hAll _ set hSet hFree rfl⟩
  simp only [unchallengedMode, foldl_false_eq_isEmpty, Bool.or_eq_true, Bool.not_eq_true',
    List.isEmpty_iff, hNone]
  cases maximal with
  | true => simp [unchallengedTree]
  | false => simp [unchallengedTree]

omit h hSmall in
/-- The scan of a conflict-free set finds what it contains before what it attacks,
as no member of it attacks the argument if the argument is a member. -/
theorem scanLastSet_cases (argument : Nat) {set : List Nat}
    (hFree : ConflictFree af.Attacks (setOf set)) (h : af.WellFormed) :
    match scanLastSet af argument set with
    | some true => argument ∈ set
    | some false => argument ∉ set ∧ ∃ s ∈ set, af.Attacks s argument
    | none => argument ∉ set ∧ ∀ s ∈ set, ¬ af.Attacks s argument := by
  induction set with
  | nil => simp [scanLastSet]
  | cons a set ih =>
      have hRest : ConflictFree af.Attacks (setOf set) := fun b hb c hc =>
        hFree b (List.mem_cons_of_mem a hb) c (List.mem_cons_of_mem a hc)
      simp only [scanLastSet, h.mem_attackedBy_iff]
      by_cases hEq : argument = a
      · simp [hEq]
      · by_cases hAttack : af.Attacks a argument
        · have hNot : argument ∉ set := fun hMem =>
            hFree a List.mem_cons_self argument (List.mem_cons_of_mem a hMem) hAttack
          simp [hEq, hAttack, hNot]
        · have hIh := ih hRest
          simp only [hEq, if_false, hAttack]
          cases hScan : scanLastSet af argument set with
          | none =>
              rw [hScan] at hIh
              simpa [hEq, hAttack] using hIh
          | some found =>
              rw [hScan] at hIh
              cases found with
              | true => exact List.mem_cons_of_mem a hIh
              | false => exact ⟨by simpa [hEq] using hIh.1, by simp [hAttack, hIh.2]⟩

/-- AS-AD: the state of the tree has the last set beside the frame, and the scan
decides between its three cases. -/
theorem acceptanceMode_implements (argument : Nat) :
    (acceptanceMode af argument).Implements af (acceptanceTree af.Attacks argument)
      (fun active sequence => (active.frame, setOf (sequence.getLastD [])))
      (fun active sequence => Reached af active ∧
        ConflictFree af.Attacks (setOf (sequence.getLastD []))) where
  valid := fun _ _ hGood => hGood.1.valid
  returns := by
    rintro active sequence b ⟨-, hFree⟩ hReturns
    have hScan := scanLastSet_cases argument hFree h
    rw [show scanLastSet af argument (sequence.getLastD []) = some b from hReturns] at hScan
    cases b with
    | true => exact ⟨fun S hS => hS.1 hScan, iff_of_true hScan rfl⟩
    | false =>
        obtain ⟨hNot, s, hs, hAttack⟩ := hScan
        exact ⟨fun S hS => hS.2.1 s hs hAttack, iff_of_false hNot (by decide)⟩
  candidates := by
    rintro active sequence fuel ⟨hReached, hFree⟩ hNone hFuel
    have hScan := scanLastSet_cases argument hFree h
    rw [show scanLastSet af argument (sequence.getLastD []) = none from hNone] at hScan
    apply (enumerateInitial_initialSets h hReached hSmall hFuel).mono
    intro out trace hPost
    obtain ⟨hQuiet, sets, rfl, hSets⟩ := hPost
    refine ⟨hQuiet, sets, rfl, fun _ hSet => hSets.nonempty hSet, fun _ hSet => hSets.drawn hSet,
      hSets.nodup, fun S => ?_, iff_of_false (by simp [acceptanceMode]) hScan.1⟩
    refine (and_iff_right hScan.1).trans ((and_iff_right hScan.2).trans ?_)
    refine (hSets.mem_iff S).symm.trans (List.mem_map.trans (exists_congr fun set => ?_))
    exact and_congr_right fun _ => (and_iff_right rfl).symm
  next := by
    rintro active sequence set ⟨hReached, -⟩ hSet ⟨-, -, hKid⟩
    have hLast : (sequence ++ [set]).getLastD [] = set := by simp
    rw [hLast]
    exact ⟨⟨hReached.getReduct h hSet, hKid.admissibleWith.conflictFree⟩,
      congrArg (·, setOf set) (getReduct_frame h hReached.valid hSet)⟩

end Modes

end SerialisationSolver
