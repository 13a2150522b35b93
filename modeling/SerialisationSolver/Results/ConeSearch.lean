import SerialisationSolver.Argumentation.Closed
import SerialisationSolver.Correctness.InitialSets
import SerialisationSolver.Correctness.Picks
import SerialisationSolver.Results.Cone

/-! Searching the cone of an argument instead of all active arguments. -/
namespace SerialisationSolver

open Interaction Interaction.Program Satisfiability Argumentation

section

variable {af : AF} (h : af.WellFormed) {active : IterableBitSet} {argument : Nat}
include h

/-- The cone contains the active attackers of its members, since a path to a member
goes on to the argument. It is therefore a part in which admissibility can be
decided. -/
theorem getCone_closed (hActive : active.Valid af) (hExact : active.Exact)
    (hArgument : argument ∈ active.array) {fuel : Nat}
    (hFuel : 1 + af.attackCount * active.array.length ≤ fuel) :
    ∃ cone, getCone fuel af active argument = .ok cone ∧ argument ∈ cone.array ∧ cone.Valid af ∧
      cone.Exact ∧ AttackerClosed af.Attacks active.actives cone.actives := by
  have hRange : ∀ a ∈ active.array, ∀ b ∈ activeAttackersOf af active a, b ∈ active.array :=
    fun a _ b hb => (hExact b).mp (mem_activeAttackersOf.mp hb).2
  have hStack : ∀ a ∈ [argument], a ∈ active.array := by simpa using hArgument
  obtain ⟨visited, hLoop, hNodup, hReached⟩ := Worklist.loop_eq hRange
    (fun a _ => activeAttackersOf_length_le a) (Worklist.invariant_start argument) hStack
    (Worklist.size_start argument ▸ hFuel)
  obtain ⟨cone, hCone, rfl, hState⟩ := coneLoop_of_loop h (coneState_empty af)
    (fun a ha => hActive.lt_args a (hStack a ha)) hLoop
  have hSub : ∀ a ∈ cone.array, a ∈ active.array := by
    intro a ha
    have hReaches := (hReached a).mp ha
    induction hReaches with
    | refl => exact hArgument
    | tail hBefore hNext ih => exact hRange _ (ih ((hReached _).mpr hBefore)) _ hNext
  refine ⟨cone, ?_, (hReached argument).mpr .refl,
    ⟨hNodup, fun a ha => hActive.lt_args a (hSub a ha),
    fun a => (hState.exact a).mpr⟩, hState.exact, hSub, fun a ha b hb hAttack => ?_⟩
  · rw [getCone, hActive.covers argument hArgument]
    exact hCone
  · have hNext : b ∈ activeAttackersOf af active a :=
      mem_activeAttackersOf.mpr ⟨hAttack, hActive.covers b hb⟩
    exact (hReached b).mpr (((hReached a).mp ha).tail hNext)

end

/-- On the cone of an argument, `enumerate_initial` returns exactly the initial sets
of the active arguments that meet the cone, and whether the argument is accepted by
some admissible set is a matter of the cone. The variables have to fit for this. -/
theorem enumerateInitial_cone {af : AF} (h : af.WellFormed) (hSmall : 2 * af.args < 2 ^ 31)
    {active : IterableBitSet} (hActive : active.Valid af) (hExact : active.Exact) {argument : Nat}
    (hArgument : argument ∈ active.array) {coneFuel fuel : Nat}
    (hConeFuel : 1 + af.attackCount * active.array.length ≤ coneFuel)
    (hFuel : 2 ^ active.array.length ≤ fuel) {State : Type} {oracle : SatOracle State}
    (hOracle : Admitted Correct oracle) (state : State) :
    ∃ cone sets, getCone coneFuel af active argument = .ok cone ∧
      ((enumerateInitial fuel af cone).run oracle state).result = .ok sets ∧
      (sets.map setOf).Nodup ∧
      (∀ S, S ∈ sets.map setOf ↔
        IsInitial af.Attacks active.actives S ∧ (S ∩ cone.actives).Nonempty) ∧
      ((∃ S, Admissible af.Attacks cone.actives S ∧ argument ∈ S) ↔
        ∃ S, Admissible af.Attacks active.actives S ∧ argument ∈ S) := by
  obtain ⟨cone, hCone, hMem, hValid, hConeExact, hClosed⟩ :=
    getCone_closed h hActive hExact hArgument hConeFuel
  have hFit : LiteralsFit af cone := by
    intro a ha
    have hLess := hValid.lt_args a ((hConeExact a).mp ha)
    omega
  have hStales : cone.stales = ∅ := by
    ext a
    simp [hConeExact a]
  have hLength : cone.array.length ≤ active.array.length :=
    (List.subperm_of_subset hValid.nodup hClosed.subset).length_le
  have hOut := (enumerateInitial_of_fit h hValid hFit fuel).run hOracle state
  cases hResult : ((enumerateInitial fuel af cone).run oracle state).result with
  | error fault =>
      rw [hResult] at hOut
      have hPow : 2 ^ cone.array.length ≤ 2 ^ active.array.length :=
        Nat.pow_le_pow_right (by decide) hLength
      have hSpent : fuel < 2 ^ cone.array.length := hOut.2
      omega
  | ok sets =>
      rw [hResult] at hOut
      obtain ⟨-, hNodup, hSets⟩ := hOut
      refine ⟨cone, sets, hCone, hResult, hNodup, fun S => ?_, hClosed.exists_admissible_iff hMem⟩
      rw [hSets, hStales, isInitialWith_empty, hClosed.isInitial_iff]

theorem enumerateInitial_cone_overlap : ∃ cone sets, getCone 21 overlap (.full 5) 3 = .ok cone ∧
    ((enumerateInitial 32 overlap cone).run
      (fun (state : Unit) query => (bruteForce query, state)) ()).result = .ok sets ∧
    (sets.map setOf).Nodup := by
  have hAdmitted : Admitted Correct (fun (state : Unit) query => (bruteForce query, state)) :=
    fun _ query => bruteForce_correct query
  have hArgument : 3 ∈ (IterableBitSet.full 5).array := by decide
  obtain ⟨cone, sets, hCone, hSets, hNodup, -⟩ :=
    enumerateInitial_cone overlap_wellFormed (by decide)
    (full_valid overlap) (full_test overlap.args) hArgument (show 21 ≤ 21 by decide)
    (show 2 ^ 5 ≤ 32 by decide) hAdmitted ()
  exact ⟨cone, sets, hCone, hSets, hNodup⟩

end SerialisationSolver
