import SerialisationSolver.Correctness.InitialSets
import SerialisationSolver.Correctness.SharedVariables

/-! The bits that `enumerate_initial` looks at. All other bits can be cleared, and
then either every literal is valid or the encoding stops the call. -/
namespace SerialisationSolver

open Interaction Interaction.Program Satisfiability

/-- The bit of an argument is looked at if it is active or attacks an active
argument. The encoding reads no other bits. -/
def IterableBitSet.Looked (active : IterableBitSet) (af : AF) (x : Nat) : Prop :=
  x ∈ active.array ∨ ∃ a ∈ active.array, x ∈ seenAttackers af active a

instance (active : IterableBitSet) (af : AF) (x : Nat) : Decidable (active.Looked af x) :=
  inferInstanceAs (Decidable (_ ∨ _))

/-- The same active arguments, without the bits that are never looked at. -/
def IterableBitSet.trim (active : IterableBitSet) (af : AF) : IterableBitSet where
  array := active.array
  bitset := (List.range af.args).map fun x => if active.Looked af x then 1 else 0

/-- The part of `enumerate_initial` before its loops: a new solver that gets the
encoding. -/
def prepare (af : AF) (active : IterableBitSet) : M CadicalSatSolver := do
  let solver ← CadicalSatSolver.new (toInt32 af.args)
  admissibleNonempty af active solver

section Trim

variable {af : AF} {active : IterableBitSet}

theorem trim_test (x : Nat) : (active.trim af).test x = true ↔ x < af.args ∧
    active.Looked af x := by
  unfold IterableBitSet.test IterableBitSet.trim
  by_cases hx : x < af.args
  · by_cases hLooked : active.Looked af x <;> simp [hx, hLooked]
  · simp [hx]

variable (h : af.WellFormed) (hActive : active.Valid af)
include hActive

theorem trim_valid : (active.trim af).Valid af where
  nodup := hActive.nodup
  lt_args := hActive.lt_args
  covers := fun a ha => (trim_test a).mpr ⟨hActive.lt_args a ha, Or.inl ha⟩

include h

theorem trim_test_attacker {a b : Nat} (ha : a ∈ active.array) (hb : b ∈ af.attackersOf a) :
    (active.trim af).test b = active.test b := by
  rw [Bool.eq_iff_iff, trim_test]
  constructor
  · rintro ⟨-, hActives | ⟨a', ha', hSeen⟩⟩
    · exact hActive.covers b hActives
    · exact (mem_seenAttackers.mp hSeen).2
  · intro hTest
    exact ⟨(h.attacks_lt hb).1, Or.inr ⟨a, ha, mem_seenAttackers.mpr ⟨hb, hTest⟩⟩⟩

theorem seenAttackers_trim {a : Nat} (ha : a ∈ active.array) :
    seenAttackers af (active.trim af) a = seenAttackers af active a :=
  List.filter_congr fun _ hb => trim_test_attacker h hActive ha hb

/-- The clauses are the same, since they are made from bits that are looked at. -/
theorem encoding_trim : encoding af (active.trim af) = encoding af active := by
  have hClauses : ∀ a ∈ active.array, argumentClauses af (active.trim af) a =
      argumentClauses af active a := by
    intro a ha
    simp only [argumentClauses, attackerClauses, seenAttackers_trim h hActive ha]
  exact congrArg (· ++ [active.array.map af.acceptedVar]) (List.flatMap_congr hClauses)

/-- What happens before the loops is the same, be it the clauses or a fault. -/
theorem prepare_trim : prepare af (active.trim af) = prepare af active := by
  refine bind_congr fun solver => ?_
  unfold admissibleNonempty
  refine congrArg (· >>= _) (forIn_congr fun a ha acc => ?_)
  refine bind_congr fun solver => ?_
  refine congrArg (· >>= _) (forIn_congr fun b hb acc => ?_)
  rw [trim_test_attacker h hActive ha hb]

omit h hActive in
/-- The literals of the bits that are left can only fail at `2 ^ 31`. -/
theorem literalsValid_trim (hArgs : af.args < 2 ^ 31)
    (hNe : ∀ x < af.args, active.Looked af x → af.args + x + 1 ≠ 2 ^ 31) :
    LiteralsValid af (active.trim af) := by
  intro x hx
  obtain ⟨hLess, hLooked⟩ := (trim_test x).mp hx
  exact ⟨by omega, validLit_rejectedVar hArgs hLess (hNe x hLess hLooked)⟩

include h

/-- Either the call stops before its loops, or all literals are valid. A bit at `2 ^
31` that is looked at belongs to a clause that is never completed. -/
theorem prepare_cases :
    (2 ^ 31 ≤ 2 * af.args ∧ ∃ fault ≠ Fault.outOfFuel, prepare af active = .fail fault) ∨
      (af.args < 2 ^ 31 ∧ LiteralsValid af (active.trim af)) := by
  by_cases hArgs : af.args < 2 ^ 31
  · by_cases hNe : ∀ x < af.args, active.Looked af x → af.args + x + 1 ≠ 2 ^ 31
    · exact Or.inr ⟨hArgs, literalsValid_trim hArgs hNe⟩
    · push Not at hNe
      obtain ⟨x, hLess, hLooked, hVar⟩ := hNe
      obtain ⟨a, ha, hUsed⟩ : ∃ a ∈ active.array, x = a ∨ x ∈ seenAttackers af active a := by
        cases hLooked with
        | inl hx => exact ⟨x, hx, Or.inl rfl⟩
        | inr hAttacker =>
            obtain ⟨a, ha, hx⟩ := hAttacker
            exact ⟨a, ha, Or.inr hx⟩
      obtain ⟨fault, hFault⟩ : ∃ fault, admissibleNonempty af active
          ⟨Cadical.Solver.new, af.args, List.replicate af.args false⟩ = .fail fault :=
        admissibleNonempty_fails ha (hActive.lt_args a ha) hUsed hVar
      have hAvoids : Avoids Correct Fault.outOfFuel (admissibleNonempty af active
          ⟨Cadical.Solver.new, af.args,
            List.replicate af.args false⟩) := admissibleNonempty_avoids _
      rw [hFault, avoids_fail] at hAvoids
      refine Or.inl ⟨by omega, fault, hAvoids, ?_⟩
      rw [prepare, new_eq hArgs, pure_bind, hFault]
  · refine Or.inl ⟨by omega, .lengthError, by decide, ?_⟩
    rw [prepare, new_fails h.args_lt (by omega), fail_bind]

omit h hActive in
/-- The loops look at the active arguments only, so that they do not notice which
bits were cleared. -/
theorem minimizeModel_trim (fuel : Nat) (s : CadicalSatSolver) (foundExtension : Bool) :
    minimizeModel af (active.trim af) fuel s foundExtension =
      minimizeModel af active fuel s foundExtension := by
  induction fuel generalizing s foundExtension with
  | zero => rfl
  | succ fuel ih =>
      simp only [minimizeModel, ih]
      rfl

omit h hActive in
theorem enumerateModels_trim (fuel : Nat) (s : CadicalSatSolver) (result : List (List Nat)) :
    enumerateModels af (active.trim af) fuel s result =
      enumerateModels af active fuel s result := by
  induction fuel generalizing s result with
  | zero => rfl
  | succ fuel ih =>
      simp only [enumerateModels, minimizeModel_trim, ih]
      rfl

omit h hActive in
theorem enumerateModelsComplement_trim (fuel : Nat) (s : CadicalSatSolver)
    (result : List (List Nat)) :
    enumerateModelsComplement af (active.trim af) fuel s result =
      enumerateModelsComplement af active fuel s result := by
  induction fuel generalizing s result with
  | zero => rfl
  | succ fuel ih =>
      simp only [enumerateModelsComplement, minimizeModel_trim, ih]
      rfl

omit h hActive in
theorem enumerateInitial_eq (hArray : active.array ≠ []) (fuel : Nat) :
    enumerateInitial fuel af active =
      prepare af active >>= fun solver => enumerateModels af active fuel solver [] := by
  rw [enumerateInitial, if_neg (by simpa using hArray), prepare, bind_assoc]

omit h hActive in
theorem enumerateInitialComplement_eq (hArray : active.array ≠ []) (fuel : Nat) :
    enumerateInitialComplement fuel af active =
      prepare af active >>= fun solver => enumerateModelsComplement af active fuel solver [] := by
  rw [enumerateInitialComplement, if_neg (by simpa using hArray), prepare, bind_assoc]

/-- The bits that are never looked at change nothing about a call. -/
theorem enumerateInitial_trim (fuel : Nat) :
    enumerateInitial fuel af (active.trim af) = enumerateInitial fuel af active := by
  by_cases hArray : active.array = []
  · simp only [enumerateInitial, IterableBitSet.trim, hArray, List.isEmpty_nil, if_true]
  · rw [enumerateInitial_eq hArray, enumerateInitial_eq
      (show (active.trim af).array ≠ [] from hArray), prepare_trim h hActive]
    simp only [enumerateModels_trim]

theorem enumerateInitialComplement_trim (fuel : Nat) :
    enumerateInitialComplement fuel af (active.trim af) =
      enumerateInitialComplement fuel af active := by
  by_cases hArray : active.array = []
  · simp only [enumerateInitialComplement, IterableBitSet.trim, hArray, List.isEmpty_nil, if_true]
  · rw [enumerateInitialComplement_eq hArray,
      enumerateInitialComplement_eq (show (active.trim af).array ≠ [] from hArray),
        prepare_trim h hActive]
    simp only [enumerateModelsComplement_trim]

theorem wanted_trim : ModelSearch.Wanted af (active.trim af) = ModelSearch.Wanted af active := by
  funext S
  rw [ModelSearch.Wanted, encoding_trim h hActive]
  rfl

/-- A call stops before its loops, with or without the complement clauses, or all
literals that are looked at are valid. This covers every set of active arguments,
whatever its bits. -/
theorem enumerateInitial_cases :
    (2 ^ 31 ≤ 2 * af.args ∧ ∃ fault ≠ Fault.outOfFuel, ∀ fuel, enumerateInitial fuel af active =
      .fail fault ∧
      enumerateInitialComplement fuel af active = .fail fault) ∨
    ((active.array ≠ [] → af.args < 2 ^ 31) ∧ LiteralsValid af (active.trim af)) := by
  by_cases hArray : active.array = []
  · refine Or.inr ⟨absurd hArray, fun x hx => ?_⟩
    obtain ⟨-, hMem | ⟨a, ha, -⟩⟩ := (trim_test x).mp hx
    · simp [hArray] at hMem
    · simp [hArray] at ha
  · refine (prepare_cases h hActive).imp ?_ fun hValid => ⟨fun _ => hValid.1, hValid.2⟩
    rintro ⟨hLarge, fault, hFault, hPrepare⟩
    refine ⟨hLarge, fault, hFault, fun fuel => ?_⟩
    rw [enumerateInitial_eq hArray, enumerateInitialComplement_eq hArray, hPrepare]
    exact ⟨rfl, rfl⟩

end Trim

end SerialisationSolver
