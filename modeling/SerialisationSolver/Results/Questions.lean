import SerialisationSolver.Correctness.Questions

/-! How many questions to the solver an enumeration costs, against any correct
solver: in terms of the sets it finds, and in terms of what it prints. -/
namespace SerialisationSolver

open Interaction Interaction.Program Satisfiability Argumentation

/-- A call of `enumerate_initial` for `n` active arguments that returns `k` sets asks
at most `k * (n + 1) + 1` questions, whichever models the solver chooses. A call
that stops early has asked at most that much for the sets it found and one more. -/
theorem enumerateInitial_asks {af : AF} (h : af.WellFormed) {active : IterableBitSet}
    (hActive : active.Valid af) {State : Type} {oracle : SatOracle State}
    (hOracle : Admitted Correct oracle) (state : State) (fuel : Nat) :
    match (enumerateInitial fuel af active).run oracle state with
      | ⟨.ok sets, _, trace⟩ => questions trace ≤ sets.length * (active.array.length + 1) + 1
      | ⟨.error _, _, trace⟩ => questions trace ≤
        (pushes trace + 1) * (active.array.length + 1) := by
  have hAsked := (enumerateInitial_questions h hActive le_rfl fuel).run hOracle state
  cases hRun : (enumerateInitial fuel af active).run oracle state with
  | mk result after trace =>
      rw [hRun] at hAsked
      cases result with
      | ok sets => exact hAsked.1
      | error fault => exact hAsked

theorem enumerateInitial_asks_overlap :
    match (enumerateInitial 4 overlap overlapRest).run
        (fun (state : Unit) query => (bruteForce query, state)) () with
      | ⟨.ok sets, _, trace⟩ => questions trace ≤ sets.length * 3 + 1
      | ⟨.error _, _, trace⟩ => questions trace ≤ (pushes trace + 1) * 3 := by
  have hOracle : Admitted Correct (fun (state : Unit) query => (bruteForce query, state)) :=
    fun _ query => bruteForce_correct query
  exact enumerateInitial_asks overlap_wellFormed overlapRest_valid hOracle () 4

/-- Every run asks one question for each of its calls at most, the first one
included, and besides at most `n + 1` questions for each set it finds. -/
theorem run_asks {af : AF} (h : af.WellFormed) {enumerator : Enumerator}
    (run : CorrectRun af enumerator) : questions run.trace ≤
      (recurses run.trace + 1) + pushes run.trace * (af.args + 1) := by
  by_cases hFits : enumerator.Fits af
  · have hAsked := run.affordable h
    rw [run.result_of_fits h hFits] at hAsked
    simp only [Affordable, charge] at hAsked
    omega
  · rw [run.trace_eq_nil h hFits]
    exact Nat.zero_le _

theorem run_asks_overlap : questions (CorrectRun.ofBruteForce overlap .complete).trace ≤
    (recurses (CorrectRun.ofBruteForce overlap .complete).trace + 1) +
      pushes (CorrectRun.ofBruteForce overlap .complete).trace * (overlap.args + 1) :=
  run_asks overlap_wellFormed _

/-- The questions of ES-AD are linear in the number of sequences it prints, in total
and not between one sequence and the next. -/
theorem admissible_asks {af : AF} (h : af.WellFormed) (run : CorrectRun af (.admissible false)) :
    questions run.trace ≤ (printed run.trace).length * (af.args + 2) := by
  by_cases hFits : Enumerator.Fits af (.admissible false)
  · have hAsked := run.affordable h
    have hTally : recurses run.trace = pushes run.trace ∧
        (printed run.trace).length = recurses run.trace + 1 := by
      have hReturns := run.result_of_fits h hFits
      rw [CorrectRun.result, (Enumerator.setup h _).start_eq] at hReturns
      rw [CorrectRun.trace, (Enumerator.setup h _).start_eq]
      exact (search_tally run.fuel (.full af.args) []).of_any.run run.correct run.state hReturns
    obtain ⟨hCalls, hOutputs⟩ := hTally
    rw [run.result_of_fits h hFits] at hAsked
    simp only [Affordable, charge, ← hCalls] at hAsked
    calc questions run.trace
        ≤ recurses run.trace * (af.args + 1) + recurses run.trace + 1 := hAsked
      _ ≤ (recurses run.trace + 1) * (af.args + 2) := by
          rw [Nat.add_mul, Nat.mul_add _ _ 2, Nat.mul_add]
          omega
      _ = (printed run.trace).length * (af.args + 2) := by rw [hOutputs]
  · rw [run.trace_eq_nil h hFits]
    exact Nat.zero_le _

theorem admissible_asks_overlap :
    questions (CorrectRun.ofBruteForce overlap (.admissible false)).trace ≤
    (printed (CorrectRun.ofBruteForce overlap (.admissible false)).trace).length *
      (overlap.args + 2) :=
  admissible_asks overlap_wellFormed _

end SerialisationSolver
