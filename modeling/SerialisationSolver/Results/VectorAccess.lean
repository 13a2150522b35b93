import SerialisationSolver.Correctness.Checked
import SerialisationSolver.Correctness.Picks
import SerialisationSolver.Correctness.Setups

/-! Vectors are only accessed within their sizes. -/
namespace SerialisationSolver

open Interaction Interaction.Program Satisfiability

/-- The call that starts an enumerator with checks, with the arguments of
`Enumerator.start`. -/
def Enumerator.checkedStart (fuel : Nat) (af : AF) (active : IterableBitSet) : Enumerator → M Unit
  | .admissible preferred => Checked.enumerateSequencesAdmissibleFrom af preferred fuel active []
  | .complete => Checked.enumerateSequencesCompleteFrom af fuel active []
  | .strongAdmissible grounded =>
      Checked.enumerateSequencesStrongAdmissibleFrom af grounded fuel active []
  | .stable => Checked.enumerateSequencesStableFrom af fuel active []
  | .unchallenged maximal => Checked.enumerateSequencesUnchallengedFrom af maximal fuel active []
  | .argumentAdmissible argument =>
    Checked.sequencesArgumentAdmissibleFrom af argument fuel active []

section

variable {af : AF} (h : af.WellFormed)
include h

theorem Enumerator.checkedStart_eq (enumerator : Enumerator) (fuel : Nat) :
    enumerator.checkedStart fuel af (.full af.args) = enumerator.start fuel af (.full af.args) := by
  have hReached := full_reached af
  cases enumerator with
  | admissible preferred => exact Checked.admissibleFrom_eq h preferred fuel hReached []
  | complete => exact Checked.completeFrom_eq h fuel hReached []
  | strongAdmissible grounded => exact Checked.strongAdmissibleFrom_eq h grounded fuel hReached []
  | stable => exact Checked.stableFrom_eq h fuel hReached []
  | unchallenged maximal => exact Checked.unchallengedFrom_eq h maximal fuel hReached []
  | argumentAdmissible argument =>
    exact Checked.argumentAdmissibleFrom_eq h argument fuel hReached (by simp)

theorem Enumerator.start_avoids (enumerator : Enumerator) (fuel : Nat)
    {admits : Query → Answer → Prop} :
    Avoids admits .outOfRange (enumerator.start fuel af (.full af.args)) := by
  rw [(enumerator.setup h).start_eq]
  apply Checked.search_avoids
  intro fuel active
  cases enumerator with
  | strongAdmissible => exact avoids_pure _
  | admissible => exact Checked.enumerateInitial_avoids fuel
  | complete => exact Checked.enumerateInitial_avoids fuel
  | stable => exact Checked.enumerateInitial_avoids fuel
  | unchallenged => exact Checked.enumerateInitial_avoids fuel
  | argumentAdmissible => exact Checked.enumerateInitial_avoids fuel

end

/-- Whatever the solver answers, no enumerator accesses a vector out of its size,
nor does `enumerate_initial` in any state that a search reaches, and the checks
change nothing else. -/
theorem access_in_range {af : AF} (h : af.WellFormed) (fuel : Nat) {State : Type}
    (oracle : SatOracle State) (state : State) :
    (∀ enumerator : Enumerator,
      ((enumerator.checkedStart fuel af (.full af.args)).run oracle state).result ≠
        .error .outOfRange ∧
      (enumerator.checkedStart fuel af (.full af.args)).run oracle state =
        (enumerator.start fuel af (.full af.args)).run oracle state) ∧
    ∀ active : IterableBitSet, Reached af active →
      ((Checked.enumerateInitial fuel af active).run oracle state).result ≠ .error .outOfRange ∧
      (Checked.enumerateInitial fuel af active).run oracle state =
        (enumerateInitial fuel af active).run oracle state := by
  have hAny : Admitted (fun _ _ => True) oracle := fun _ _ => trivial
  constructor
  · intro enumerator
    rw [enumerator.checkedStart_eq h]
    exact ⟨(enumerator.start_avoids h fuel).ensures.run hAny state, rfl⟩
  · intro active hReached
    rw [Checked.enumerateInitial_eq hReached h]
    exact ⟨(Checked.enumerateInitial_avoids fuel).ensures.run hAny state, rfl⟩

/-- A run that ends, since there is enough fuel and the solver is correct. It reaches the
state in which a bit outside of the array is set. -/
theorem access_in_range_overlap :
    ((Enumerator.checkedStart (2 ^ 5) overlap (.full 5) .complete).run
      (fun (state : Unit) query => (bruteForce query, state)) ()).result ≠ .error .outOfRange :=
  ((access_in_range overlap_wellFormed (2 ^ 5) _ ()).1 .complete).1

end SerialisationSolver
