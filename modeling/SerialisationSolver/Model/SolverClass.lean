import SerialisationSolver.Model.SatSolver

/-! The whole class of `src/CadicalSatSolver.cpp`, with the methods and the field
that no algorithm uses. -/
namespace SerialisationSolver

open Interaction Satisfiability

/-- The class with its second vector, which `solve_extension` fills and the other
methods leave alone. -/
structure SolverObject extends CadicalSatSolver where
  extension : List Nat

namespace SolverObject

/-- The constructor sizes both vectors with the number of arguments, and neither is
read before a call of `solve` has filled it. -/
def new (nArgs : Int) : M SolverObject := do
  let base ← CadicalSatSolver.new nArgs
  return { base with extension := List.replicate nArgs.toNat 0 }

/-- A method that leaves the second vector alone, for methods that the algorithms
use as well. -/
def lift (s : SolverObject) (method : CadicalSatSolver → M CadicalSatSolver) : M SolverObject := do
  let base ← method s.toCadicalSatSolver
  return { s with toCadicalSatSolver := base }

def addClause (s : SolverObject) (clause : Clause) : M SolverObject := s.lift (·.addClause clause)

def addClause1 (s : SolverObject) (lit : Int) : M SolverObject := do
  let solver ← s.solver.add lit
  let solver ← solver.add 0
  return { s with solver }

def addClause2 (s : SolverObject) (lit1 lit2 : Int) : M SolverObject :=
  s.lift (·.addClause2 lit1 lit2)

def addClause3 (s : SolverObject) (lit1 lit2 lit3 : Int) : M SolverObject := do
  let solver ← s.solver.add lit1
  let solver ← solver.add lit2
  let solver ← solver.add lit3
  let solver ← solver.add 0
  return { s with solver }

def assume (s : SolverObject) (lit : Int) : M SolverObject := s.lift (·.assume lit)

def solve (s : SolverObject) : M (Int × SolverObject) := do
  let (sat, base) ← s.toCadicalSatSolver.solve
  return (sat, { s with toCadicalSatSolver := base })

/-- `solve_extension`: as `solve`, but the arguments of the model are collected too,
in their order. -/
def solveExtension (s : SolverObject) : M (Int × SolverObject) := do
  let (sat, solver) ← s.solver.solve
  let s := { s with solver }
  if !(sat = satV || sat = unsatV) then .fail .exit
  else if sat = satV then
    if s.decisionVars = 2 ^ 31 - 1 then .fail .overflow
    else
      let mut model : List Bool := []
      let mut extension : List Nat := []
      for i in List.range s.decisionVars.toNat do
        let value ← solver.val (i + 1)
        if 0 < value then
          model := model ++ [true]
          extension := extension ++ [i]
        else
          model := model ++ [false]
      return (sat, { s with model, extension })
  else return (sat, s)

/-- The overload of `solve` with assumptions, which are handed over one by one
before the question. -/
def solveUnder (s : SolverObject) (assumptions : List Int) : M (Int × SolverObject) := do
  let mut s := s
  for lit in assumptions do
    s ← s.assume lit
  s.solve

end SolverObject

/-- The calls that a user of the class can make, with their arguments. -/
inductive SolverCall where
  | addClause (clause : Clause)
  | addClause1 (lit : Int)
  | addClause2 (lit1 lit2 : Int)
  | addClause3 (lit1 lit2 lit3 : Int)
  | assume (lit : Int)
  | solve
  | solveExtension
  | solveUnder (assumptions : List Int)

/-- One call, with what it returns. Only the three kinds of `solve` return
something. -/
def SolverObject.perform (s : SolverObject) : SolverCall → M (Option Int × SolverObject)
  | .addClause clause => do return (none, ← s.addClause clause)
  | .addClause1 lit => do return (none, ← s.addClause1 lit)
  | .addClause2 lit1 lit2 => do return (none, ← s.addClause2 lit1 lit2)
  | .addClause3 lit1 lit2 lit3 => do return (none, ← s.addClause3 lit1 lit2 lit3)
  | .assume lit => do return (none, ← s.assume lit)
  | .solve => do
      let (sat, s) ← s.solve
      return (some sat, s)
  | .solveExtension => do
      let (sat, s) ← s.solveExtension
      return (some sat, s)
  | .solveUnder assumptions => do
      let (sat, s) ← s.solveUnder assumptions
      return (some sat, s)

/-- Several calls in a row. After each of them the user sees what it returned and
both vectors. -/
def SolverObject.performAll (s : SolverObject) :
    List SolverCall → M (List (Option Int × List Bool × List Nat))
  | [] => return []
  | call :: calls => do
      let (sat, s) ← s.perform call
      let later ← s.performAll calls
      return (sat, s.model, s.extension) :: later

end SerialisationSolver
