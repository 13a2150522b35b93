import SerialisationSolver.Model.SatSolver

/-! `src/Encodings.cpp` and `src/EE-IT.cpp`: the encoding of non-empty
admissible sets and the enumeration of the minimal ones. -/
namespace SerialisationSolver

open Interaction

/-- `admissible_nonempty`: clauses whose models accept the non-empty admissible
sets. The attackers of an argument are looked up by their bits, whereas the clauses
are made for the arguments in the array. -/
def admissibleNonempty (af : AF) (active : IterableBitSet) (solver : CadicalSatSolver) :
    M CadicalSatSolver := do
  let mut solver := solver
  let mut nonEmptyClause : List Int := []
  for arg in active.array do
    nonEmptyClause := nonEmptyClause ++ [af.acceptedVar arg]
    solver ← solver.addClause2 (-af.acceptedVar arg) (-af.rejectedVar arg)
    let mut outClause : List Int := []
    for attacker in af.attackersOf arg do
      if active.test attacker then
        solver ← solver.addClause2 (-af.acceptedVar arg) (af.rejectedVar attacker)
        outClause := outClause ++ [af.acceptedVar attacker]
    outClause := outClause ++ [-af.rejectedVar arg]
    solver ← solver.addClause outClause
  solver.addClause nonEmptyClause

/-- `solver.model[arg]`, the entry of the last model that was found. -/
def CadicalSatSolver.accepts (s : CadicalSatSolver) (arg : Nat) : Bool := s.model.getD arg false

/-- Body of the inner loop after a model was found: the minimisation clause is
built, and what the model does not accept is assumed to stay rejected. -/
def excludeModel (af : AF) (active : IterableBitSet) (solver : CadicalSatSolver) :
    M CadicalSatSolver := do
  let mut next := solver
  let mut minimizationClause : List Int := []
  for arg in active.array do
    if solver.accepts arg then
      minimizationClause := minimizationClause ++ [-af.acceptedVar arg]
    else
      next ← next.assume (-af.acceptedVar arg)
  next.addClause minimizationClause

/-- The inner `while (true)`; the flag is `found_extension`. The loop is left with
the solver that holds the last model, once the assumptions cannot be met any more. -/
def minimizeModel (af : AF) (active : IterableBitSet) :
    Nat → CadicalSatSolver → Bool → M (CadicalSatSolver × Bool)
  | 0, _, _ => .fail .outOfFuel
  | fuel + 1, solver, foundExtension => do
      let (sat, solver) ← solver.solve
      if sat = unsatV then return (solver, foundExtension)
      else
        let solver ← excludeModel af active solver
        minimizeModel af active fuel solver true

/-- The outer `while (true)`. Each of its passes pushes one extension, the one that
the inner loop could not make smaller, or ends the enumeration. -/
def enumerateModels (af : AF) (active : IterableBitSet) :
    Nat → CadicalSatSolver → List (List Nat) → M (List (List Nat))
  | 0, _, _ => .fail .outOfFuel
  | fuel + 1, solver, result => do
      let (solver, foundExtension) ← minimizeModel af active (fuel + 1) solver false
      if foundExtension then
        let extension := active.array.filter solver.accepts
        Program.log (.push extension)
        enumerateModels af active fuel solver (result ++ [extension])
      else return result

/-- `enumerate_initial`: with nothing active there is nothing to report, otherwise a
new solver gets the encoding and is questioned until it has no further model. -/
def enumerateInitial (fuel : Nat) (af : AF) (active : IterableBitSet) : M (List (List Nat)) := do
  if active.array.isEmpty then return []
  else
    let solver ← CadicalSatSolver.new (toInt32 af.args)
    let solver ← admissibleNonempty af active solver
    enumerateModels af active fuel solver []

/-- The outer `while (true)` with the lines about `complement_clause`, which are
commented out in the source. They add one clause for each extension that is pushed. -/
def enumerateModelsComplement (af : AF) (active : IterableBitSet) :
    Nat → CadicalSatSolver → List (List Nat) → M (List (List Nat))
  | 0, _, _ => .fail .outOfFuel
  | fuel + 1, solver, result => do
      let (solver, foundExtension) ← minimizeModel af active (fuel + 1) solver false
      if foundExtension then
        let extension := active.array.filter solver.accepts
        let complementClause := extension.map fun arg => -af.acceptedVar arg
        Program.log (.push extension)
        let solver ← solver.addClause complementClause
        enumerateModelsComplement af active fuel solver (result ++ [extension])
      else return result

/-- `enumerate_initial` with the lines that are commented out, to be compared with
the function as it is. -/
def enumerateInitialComplement (fuel : Nat) (af : AF) (active : IterableBitSet) :
    M (List (List Nat)) := do
  if active.array.isEmpty then return []
  else
    let solver ← CadicalSatSolver.new (toInt32 af.args)
    let solver ← admissibleNonempty af active solver
    enumerateModelsComplement af active fuel solver []

end SerialisationSolver
