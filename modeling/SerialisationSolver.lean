import SerialisationSolver.Interaction.Program
import SerialisationSolver.Interaction.Contract
import SerialisationSolver.Interaction.Lockstep
import SerialisationSolver.Interaction.Returns
import SerialisationSolver.Interaction.Machine
import SerialisationSolver.Interaction.Translate
import SerialisationSolver.Interaction.Interrupt
import SerialisationSolver.Interaction.Thinning
import SerialisationSolver.Text.Delimited
import SerialisationSolver.Search.Tree
import SerialisationSolver.Search.Blocking
import SerialisationSolver.Search.Traversal
import SerialisationSolver.Search.Worklist
import SerialisationSolver.Satisfiability.Formula
import SerialisationSolver.Argumentation.Admissible
import SerialisationSolver.Argumentation.Closed
import SerialisationSolver.Argumentation.Chain
import SerialisationSolver.Argumentation.Extensions
import SerialisationSolver.Argumentation.Searches
import SerialisationSolver.Argumentation.Hierarchy
import SerialisationSolver.Argumentation.StrongAdmissibility
import SerialisationSolver.Argumentation.Renaming
import SerialisationSolver.Argumentation.Apart
import SerialisationSolver.Argumentation.Coattackers
import SerialisationSolver.Model.Framework
import SerialisationSolver.Model.SatSolver
import SerialisationSolver.Model.SolverClass
import SerialisationSolver.Model.InitialSets
import SerialisationSolver.Model.Sequences
import SerialisationSolver.Model.Checked
import SerialisationSolver.Model.Output
import SerialisationSolver.Model.Cone
import SerialisationSolver.Model.Parse
import SerialisationSolver.Model.Main
import SerialisationSolver.Correctness.Framework
import SerialisationSolver.Correctness.Parse
import SerialisationSolver.Correctness.Reduct
import SerialisationSolver.Correctness.Picks
import SerialisationSolver.Correctness.Cone
import SerialisationSolver.Correctness.SolverInterface
import SerialisationSolver.Correctness.SolverClass
import SerialisationSolver.Correctness.Encoding
import SerialisationSolver.Correctness.ModelSearch
import SerialisationSolver.Correctness.InitialSets
import SerialisationSolver.Correctness.SharedVariables
import SerialisationSolver.Correctness.Trim
import SerialisationSolver.Correctness.Outcome
import SerialisationSolver.Correctness.ComplementClause
import SerialisationSolver.Correctness.Search
import SerialisationSolver.Correctness.Calls
import SerialisationSolver.Correctness.Enumerators
import SerialisationSolver.Correctness.Checked
import SerialisationSolver.Correctness.Recursion
import SerialisationSolver.Correctness.Implementation
import SerialisationSolver.Correctness.Setups
import SerialisationSolver.Correctness.Runs
import SerialisationSolver.Correctness.Answers
import SerialisationSolver.Correctness.Chains
import SerialisationSolver.Correctness.Meanings
import SerialisationSolver.Correctness.Questions
import SerialisationSolver.Correctness.Output
import SerialisationSolver.Correctness.Main
import SerialisationSolver.Correctness.Streams
import SerialisationSolver.Correctness.Interruption
import SerialisationSolver.Results.InitialSets
import SerialisationSolver.Results.Termination
import SerialisationSolver.Results.ComplementClause
import SerialisationSolver.Results.Reducts
import SerialisationSolver.Results.AdmissibleSequences
import SerialisationSolver.Results.Extensions
import SerialisationSolver.Results.Unchallenged
import SerialisationSolver.Results.Encoding
import SerialisationSolver.Results.Literals
import SerialisationSolver.Results.Cone
import SerialisationSolver.Results.ConeSearch
import SerialisationSolver.Results.PrintedSequences
import SerialisationSolver.Results.OutputOrder
import SerialisationSolver.Results.Thinning
import SerialisationSolver.Results.SolverIndependence
import SerialisationSolver.Results.SolverClass
import SerialisationSolver.Results.VectorAccess
import SerialisationSolver.Results.Agreement
import SerialisationSolver.Results.StrongAdmissibility
import SerialisationSolver.Results.Renaming
import SerialisationSolver.Results.Documents
import SerialisationSolver.Results.Layout
import SerialisationSolver.Results.ParsingSafety
import SerialisationSolver.Results.AttackLines
import SerialisationSolver.Results.Apart
import SerialisationSolver.Results.Coattackers
import SerialisationSolver.Results.Questions
import SerialisationSolver.Results.Launch
import SerialisationSolver.Results.Main
