import SerialisationSolver.Interaction.Program
import SerialisationSolver.Satisfiability.Formula
import SerialisationSolver.Model.Framework

/-! The SAT solver as the algorithms see it: the interface layer of
`lib/cadical-1.9.5/src/solver.cpp` and the class in `src/CadicalSatSolver.cpp`.
The search behind `solve` is left to the environment of the program. -/
namespace SerialisationSolver

open Interaction Satisfiability

/-- A sequence of sets as the source holds it: a vector of vectors of arguments. -/
abbrev Sequence := List (List Nat)

/-- What an execution shows besides its questions to the solver. Only `print` is
output of the program; the other events mark places of the source. -/
inductive Event where
  /-- `result.push_back(extension)` in `enumerate_initial` -/
  | push (extension : List Nat)
  /-- the recursive call made in state `active` for the set `set` -/
  | recurse (active : IterableBitSet) (set : List Nat)
      (newActive : IterableBitSet) (newSequence : Sequence)
  /-- `print_sequence` followed by a comma -/
  | print (sequence : Sequence)

/-- The algorithms, which ask the solver, show events, and may end with a fault. -/
abbrev M := Program Query Answer Event Fault

/-- Everything that is on the record of an execution, in order: questions with their
answers, and events. -/
abbrev Trace := List (Entry Query Answer Event)

/-- A solver that may keep a state between its answers. Nothing is assumed of it
here; `Satisfiability.Correct` says what a correct one does. -/
abbrev SatOracle (State : Type) := Oracle Query Answer State

/-- `SAT_V` of `include/CadicalSatSolver.h`, the code that the solver returns with a
model. -/
def satV : Int := 10

/-- `UNSAT_V` of `include/CadicalSatSolver.h`, the code for a formula without
models. -/
def unsatV : Int := 20

namespace Cadical

/-- The states of the solver's interface that the class can bring it into. Each call
is allowed in some of them only. -/
inductive State where
  | configuring
  | steady
  | adding
  | satisfied
  | unsatisfied
  deriving DecidableEq, Repr

/-- The interface of the solver. `clause` collects the literals of the clause being
added, and `vals` is the valuation of the last answer. -/
structure Solver where
  state : State
  clause : Clause
  clauses : List Clause
  assumptions : List Int
  vals : Valuation

namespace Solver

/-- A solver without clauses and assumptions, in its first state. -/
def new : Solver := ⟨.configuring, [], [], [], fun _ => false⟩

/-- Assumptions hold for one call of `solve`: they are dropped on leaving the state
that this call ended in. -/
def transitionToSteadyState (s : Solver) : Solver :=
  { s with
    state := .steady
    assumptions := if s.state = .satisfied ∨ s.state = .unsatisfied then [] else s.assumptions }

/-- `REQUIRE_VALID_LIT`, for a literal that is still in the range of `int`. The
smallest `int` is excluded, as it cannot be negated. -/
def ValidLit (lit : Int) : Prop := lit ≠ 0 ∧ -2 ^ 31 < lit ∧ lit < 2 ^ 31

instance (lit : Int) : Decidable (ValidLit lit) := inferInstanceAs (Decidable (_ ∧ _))

/-- `Solver::add`. A zero ends the clause and makes it one of the formula, any other
literal is appended to the clause being added. -/
def add (s : Solver) (lit : Int) : M Solver :=
  if lit = 0 then
    let s := s.transitionToSteadyState
    pure { s with clauses := s.clauses ++ [s.clause], clause := [] }
  else if ValidLit lit then
    let s := s.transitionToSteadyState
    pure { s with state := .adding, clause := s.clause ++ [lit] }
  else .fail .invalidLiteral

/-- `Solver::assume`: the literal is assumed for the next call of `solve`. -/
def assume (s : Solver) (lit : Int) : M Solver :=
  if ValidLit lit then
    let s := s.transitionToSteadyState
    pure { s with assumptions := s.assumptions ++ [lit] }
  else .fail .invalidLiteral

/-- `Solver::solve` asks for the clauses under the assumptions, and what the
environment answers decides the state that follows. A clause that is not ended is an
error. -/
def solve (s : Solver) : M (Int × Solver) := do
  if s.state = .adding then .fail .apiState else
    let s := s.transitionToSteadyState
    let answer ← Program.request ⟨s.clauses, s.assumptions⟩
    let state :=
      if answer.res = 10 then .satisfied
      else if answer.res = 20 then .unsatisfied
      else .steady
    return (answer.res, { s with state, vals := answer.vals })

/-- The literal itself if it is true, its negation if it is false. There are values
only after an answer with a model. -/
def val (s : Solver) (lit : Int) : M Int :=
  if s.state = .satisfied then pure (if s.vals lit.natAbs then lit else -lit) else .fail .apiState

end Solver

end Cadical

/-- Class `CadicalSatSolver`: `model` caches the last model found, and
`decision_vars` is how many variables of it are cached. -/
structure CadicalSatSolver where
  solver : Cadical.Solver
  decisionVars : Int
  model : List Bool

namespace CadicalSatSolver

/-- The constructor. The model is sized with the number of arguments, which must not
be negative. -/
def new (nArgs : Int) : M CadicalSatSolver :=
  if nArgs < 0 then .fail .lengthError
  else pure ⟨Cadical.Solver.new, nArgs, List.replicate nArgs.toNat false⟩

/-- `add_clause`: the literals one by one, and the zero that ends the clause. -/
def addClause (s : CadicalSatSolver) (clause : Clause) : M CadicalSatSolver := do
  let mut solver := s.solver
  for lit in clause do
    solver ← solver.add lit
  solver ← solver.add 0
  return { s with solver }

/-- `add_clause_2`, for a clause of two literals. -/
def addClause2 (s : CadicalSatSolver) (lit1 lit2 : Int) : M CadicalSatSolver := do
  let solver ← s.solver.add lit1
  let solver ← solver.add lit2
  let solver ← solver.add 0
  return { s with solver }

/-- `assume` hands the literal to the solver. -/
def assume (s : CadicalSatSolver) (lit : Int) : M CadicalSatSolver := do
  let solver ← s.solver.assume lit
  return { s with solver }

/-- `solve` caches the model that was found. The loop that reads it counts up to
`decisionVars`, so its counter runs over when that is the largest `int`. -/
def solve (s : CadicalSatSolver) : M (Int × CadicalSatSolver) := do
  let (sat, solver) ← s.solver.solve
  let s := { s with solver }
  if !(sat = satV || sat = unsatV) then .fail .exit
  else if sat = satV then
    if s.decisionVars = 2 ^ 31 - 1 then .fail .overflow else
      let vals ← (List.range s.decisionVars.toNat).mapM fun (i : Nat) => solver.val (i + 1)
      return (sat, { s with model := vals.map fun v => decide (0 < v) })
  else return (sat, s)

end CadicalSatSolver

end SerialisationSolver
