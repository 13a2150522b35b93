import SerialisationSolver.Correctness.Outcome
import SerialisationSolver.Correctness.Enumerators

/-! Why every recursion ends. The sets that a call takes are not empty and
consist of active arguments, so each reduct has less of them. -/
namespace SerialisationSolver

open Interaction Interaction.Program Satisfiability

section Recursion

variable {Flag : Type} {af : AF} {mode : Mode Flag}

/-- The sets of a mode consist of active arguments, at least one each, and enough
fuel never runs out. These are the facts that make the recursion end. -/
def Mode.Supplies (af : AF) (mode : Mode Flag) : Prop :=
  ∀ fuel active, active.Valid af → Ensures Correct (mode.candidates fuel active) (fun out trace =>
    Quiet trace ∧ (2 ^ active.array.length ≤ fuel → out ≠ .error .outOfFuel) ∧
      ∀ sets, out = .ok sets → ∀ set ∈ sets, set ≠ [] ∧ ∀ a ∈ set, a ∈ active.array)

variable (h : af.WellFormed)
include h

/-- Sets from `enumerate_initial` are of this kind for every valid set of active
arguments, whatever the stale bits are. -/
theorem enumerateInitial_supplies
    (hCandidates : mode.candidates = fun fuel active => enumerateInitial fuel af active) :
    mode.Supplies af := by
  intro fuel active hActive
  rw [hCandidates]
  rcases enumerateInitial_cases h hActive with ⟨-, fault, hFault, hFails⟩ | ⟨hArgs, hValid⟩
  · dsimp only
    rw [(hFails fuel).1]
    exact ⟨quiet_nil, fun _ hEq => hFault (Except.error.inj hEq), by simp⟩
  · refine ((enumerateInitial_runs h hActive hArgs hValid fuel).and
      (enumerateInitial_draws fuel).of_any).mono ?_
    rintro out trace ⟨⟨-, hDetermined, hEnumerates⟩, hQuiet, hDrawn⟩
    refine ⟨hQuiet, ?_, ?_⟩
    · rintro hFuel rfl
      simpa using (hDetermined hFuel).1
    · rintro sets rfl set hSet
      refine ⟨?_, hDrawn sets rfl set hSet⟩
      rintro rfl
      have hMinimal := ((hEnumerates sets rfl).mem_iff _).mp (List.mem_map_of_mem hSet)
      obtain ⟨a, ha⟩ := wanted_nonempty h hActive hValid hMinimal.prop
      simp at ha

omit h in
/-- The direct scan takes single arguments and has no loop that could lack fuel. -/
theorem strongAdmissibleMode_supplies (grounded : Bool) :
    (strongAdmissibleMode af grounded).Supplies af := by
  refine fun fuel active _ => ⟨quiet_nil, by simp, ?_⟩
  rintro sets ⟨⟩ set hSet
  obtain ⟨a, ha, rfl⟩ := List.mem_map.mp hSet
  exact ⟨by simp, by simpa using ha⟩

omit h in
/-- The loop over the sets does not lack fuel if none of the calls does. -/
private theorem loop_avoids {fuel : Nat} {active : IterableBitSet} {sequence : Sequence}
    {sets : List (List Nat)} (hBelow : ∀ set ∈ sets, Avoids Correct Fault.outOfFuel
      (search af mode fuel (getReduct af active set) (sequence ++ [set]))) :
    Avoids Correct Fault.outOfFuel (forIn sets mode.init fun set flag =>
      if mode.skips active sets set = true then pure (ForInStep.yield flag)
      else do
        Program.log (.recurse active set (getReduct af active set) (sequence ++ [set]))
        search af mode fuel (getReduct af active set) (sequence ++ [set])
        pure (ForInStep.yield (mode.mark active set flag))) := by
  apply Avoids.forIn
  intro set hSet flag
  split_ifs
  · exact avoids_pure _
  · exact Avoids.log ((hBelow set hSet).bind fun _ => avoids_pure _)

/-- With `2 ^ n` fuel for `n` active arguments the recursion ends by itself. By
induction on the fuel: a reduct has fewer active arguments, and half of the fuel is
enough for one of them less. -/
theorem search_avoids (hSupplies : mode.Supplies af) (fuel : Nat) {active : IterableBitSet}
    (hActive : active.Valid af) (sequence : Sequence) (hFuel : 2 ^ active.array.length ≤ fuel) :
    Avoids Correct .outOfFuel (search af mode fuel active sequence) := by
  induction fuel generalizing active sequence with
  | zero =>
      have hPos := Nat.two_pow_pos active.array.length
      omega
  | succ fuel ih =>
      have hPrint : ∀ sequence, Avoids Correct Fault.outOfFuel (printSequence sequence) :=
        fun sequence => ⟨fun hEq => by cases hEq⟩
      rw [search]
      rcases mode.returns sequence active with _ | (_ | _)
      · refine ⟨Ensures.seq _ (hSupplies (fuel + 1) active hActive) ?_ ?_⟩
        · rintro fault trace ⟨-, hFault, -⟩ hEq
          exact hFault hFuel (congrArg Except.error (Except.error.inj hEq))
        · intro sets trace hPost
          have hBelow : ∀ set ∈ sets, Avoids Correct Fault.outOfFuel
              (search af mode fuel (getReduct af active set) (sequence ++ [set])) := by
            intro set hSet
            obtain ⟨hNonempty, hDrawn⟩ := hPost.2.2 sets rfl set hSet
            have hLess := getReduct_length_lt h hActive hDrawn hNonempty
            have hHalf := Nat.pow_lt_pow_right (by decide : 1 < 2) hLess
            exact ih (getReduct_valid h hActive hDrawn) _ (by omega)
          refine Ensures.seq _ (loop_avoids hBelow).ensures ?_ ?_
          · rintro fault later hFault hEq
            exact hFault (congrArg Except.error (Except.error.inj hEq))
          · intro flag later _
            dsimp only
            split_ifs
            · exact (hPrint sequence).ensures
            · exact (avoids_pure ()).ensures
      · exact avoids_pure _
      · exact hPrint sequence

/-- Every recursive call is made for less active arguments than its caller has, so
that the depth is at most the number of arguments. -/
theorem search_shrinks (hSupplies : mode.Supplies af) (fuel : Nat) :
    Ensures Correct (search af mode fuel (.full af.args) []) (fun _ trace =>
      CallRecord af (fun active sequence => active.Valid af ∧
        sequence.length + active.array.length ≤ af.args)
        (fun active set => set ≠ [] ∧ ∀ a ∈ set, a ∈ active.array) [] trace) := by
  apply search_calls
  · intro fuel active sequence hInv
    apply (hSupplies fuel active hInv.1).mono
    rintro out trace ⟨hQuiet, -, hSets⟩
    exact ⟨hQuiet, fun sets hOut set hSet _ => hSets sets hOut set hSet⟩
  · rintro active sequence set ⟨hActive, hLength⟩ ⟨hNonempty, hDrawn⟩
    have hLess := getReduct_length_lt h hActive hDrawn hNonempty
    refine ⟨getReduct_valid h hActive hDrawn, ?_⟩
    rw [List.length_append, List.length_singleton]
    omega
  · exact ⟨full_valid af, by simp [IterableBitSet.full]⟩

/-- Every enumerator is a recursion whose mode supplies its sets, with and without
variables in range. -/
theorem Enumerator.exists_supplies (enumerator : Enumerator) : ∃ (Flag : Type) (mode : Mode Flag),
    mode.Supplies af ∧ ∀ fuel active, enumerator.start fuel af active =
      search af mode fuel active [] := by
  cases enumerator with
  | admissible preferred =>
      refine ⟨Bool, admissibleMode af preferred, enumerateInitial_supplies h rfl,
        fun fuel active => ?_⟩
      exact congrFun (congrFun (enumerateSequencesAdmissibleFrom_eq af preferred fuel) active) []
  | complete =>
      refine ⟨Bool, completeMode af, enumerateInitial_supplies h rfl, fun fuel active => ?_⟩
      exact congrFun (congrFun (enumerateSequencesCompleteFrom_eq af fuel) active) []
  | strongAdmissible grounded =>
      refine ⟨Bool, strongAdmissibleMode af grounded, strongAdmissibleMode_supplies grounded,
        fun fuel active => ?_⟩
      exact congrFun
        (congrFun (enumerateSequencesStrongAdmissibleFrom_eq af grounded fuel) active) []
  | stable =>
      refine ⟨Unit, stableMode af, enumerateInitial_supplies h rfl, fun fuel active => ?_⟩
      exact congrFun (congrFun (enumerateSequencesStableFrom_eq af fuel) active) []
  | unchallenged maximal =>
      refine ⟨Bool, unchallengedMode af maximal, enumerateInitial_supplies h rfl,
        fun fuel active => ?_⟩
      exact congrFun (congrFun (enumerateSequencesUnchallengedFrom_eq af maximal fuel) active) []
  | argumentAdmissible argument =>
      refine ⟨Unit, acceptanceMode af argument, enumerateInitial_supplies h rfl,
        fun fuel active => ?_⟩
      exact congrFun (congrFun (sequencesArgumentAdmissibleFrom_eq af argument fuel) active) []

end Recursion

end SerialisationSolver
