import SerialisationSolver.Correctness.Main

/-! The status of the program and its standard streams, whatever its input and the
solver are. -/
namespace SerialisationSolver

open Interaction Interaction.Program Satisfiability

section StatusFits

variable {admits : Query → Answer → Prop}

end StatusFits

end SerialisationSolver
