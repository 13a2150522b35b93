import SerialisationSolver.Correctness.SolverClass

/-! The solver class over all sequences of calls. -/
namespace SerialisationSolver

open Interaction Satisfiability

/-- Whatever is called in whatever order, a solver object behaves like a session: it
asks the same questions, returns the same codes and shows the same vectors. The
bound keeps the counter of the loop that reads a model in range. -/
theorem solverObject_refines {nArgs : Nat} (hArgs : nArgs < 2 ^ 31 - 1) {calls : List SolverCall}
    (hValid : ∀ call ∈ calls, call.Valid) :
    (SolverObject.new nArgs >>= fun s => s.performAll calls) =
      (Session.start nArgs).performAll nArgs calls := by
  have hNew : SolverObject.new nArgs =
    pure ⟨⟨Cadical.Solver.new, nArgs, List.replicate nArgs false⟩,
      List.replicate nArgs 0⟩ := by
    rw [SolverObject.new, CadicalSatSolver.new, if_neg (by omega), pure_bind, Int.toNat_natCast]
  rw [hNew, pure_bind]
  apply SolverObject.performAll_eq _ hArgs hValid
  have hState : Cadical.Solver.new.state ≠ .adding := by decide
  exact ⟨⟨hState, rfl⟩, rfl, rfl, rfl, rfl, rfl⟩

/-- A model under an assumption, and another question after it. -/
theorem solverObject_refines_three :
    (SolverObject.new 3 >>= fun s => s.performAll
      [.addClause3 1 (-2) 3, .assume (-1), .solveExtension,
        .addClause1 2, .solveUnder [-3], .solve]) =
      (Session.start 3).performAll 3
        [.addClause3 1 (-2) 3, .assume (-1), .solveExtension,
          .addClause1 2, .solveUnder [-3], .solve] := by
  apply solverObject_refines (show 3 < 2 ^ 31 - 1 by decide)
  simp [SolverCall.Valid, Cadical.Solver.ValidLit]

end SerialisationSolver
