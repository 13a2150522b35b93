import SerialisationSolver.Correctness.Answers

/-! The order in which sequences are printed. -/
namespace SerialisationSolver

open Interaction Interaction.Program Satisfiability Argumentation SearchTree

variable {af : AF} {enumerator : Enumerator}

/-- What a run prints is the output of one traversal of the tree. Which traversal it
is depends on the order in which the solver finds the sets. -/
theorem CorrectRun.traversal (run : CorrectRun af enumerator) (h : af.WellFormed)
    (hFits : enumerator.Fits af) :
    (enumerator.setup h).tree.Traversal setOf ((enumerator.setup h).abs (.full af.args) []) []
      (printed run.trace) := by
  have hLength : (IterableBitSet.full af.args).array.length = af.args := List.length_range
  rw [trace, (enumerator.setup h).start_eq]
  have hEnds := search_ensures h ((enumerator.setup h).implements hFits) run.fuel
    (enumerator.setup h).good (by rw [hLength]; exact run.enough)
  exact (hEnds.run run.correct run.state).2

/-- In every run a sequence is printed after all printed sequences that it begins,
and the printed sequences with a common beginning are printed one after the other. -/
theorem printed_in_order (h : af.WellFormed) (run : CorrectRun af enumerator) :
    ((printed run.trace).Pairwise fun earlier later => ¬ earlier <+: later) ∧
    ∀ start : Sequence, Together (start <+: ·) (printed run.trace) := by
  by_cases hFits : enumerator.Fits af
  · have hTraversal := run.traversal h hFits
    refine ⟨hTraversal.pairwise.imp fun hNot hPrefix => hNot (hPrefix.map _), fun start => ?_⟩
    exact hTraversal.together start
  · rw [run.trace_eq_nil h hFits]
    exact ⟨List.Pairwise.nil, fun start => together_of_none (by simp)⟩

theorem printed_in_order_overlap :
    ((printed (CorrectRun.ofBruteForce overlap .complete).trace).Pairwise fun earlier later =>
      ¬ earlier <+: later) ∧
    ∀ start : Sequence, Together (start <+: ·)
      (printed (CorrectRun.ofBruteForce overlap .complete).trace) :=
  printed_in_order overlap_wellFormed _

end SerialisationSolver
