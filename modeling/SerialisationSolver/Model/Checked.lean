import SerialisationSolver.Model.Sequences

/-! The algorithms with a check at every access to a vector that the bounds of a
loop do not already justify. A failed check is the fault `outOfRange`. -/
namespace SerialisationSolver.Checked

open Interaction

/-- `items[i]`, where reading outside of the vector is a fault instead of undefined
behaviour. -/
def load {Item : Type} (items : List Item) (i : Nat) : M Item :=
  match items[i]? with
  | some item => pure item
  | none => .fail .outOfRange

/-- `items[i] = item`, where writing outside of the vector is a fault. -/
def store {Item : Type} (items : List Item) (i : Nat) (item : Item) : M (List Item) :=
  if i < items.length then pure (items.set i item) else .fail .outOfRange

/-- First loop of `get_reduct`. Every argument is checked as an index of the marks,
and the given ones as indices of the framework too. -/
def markRemoved (af : AF) (arguments : List Nat) : M (List UInt8) := do
  let mut bits : List UInt8 := List.replicate af.args 0
  for arg1 in arguments do
    bits ← store bits arg1 1
    let attacked ← load af.attacked arg1
    for arg2 in attacked do
      bits ← store bits arg2 1
  return bits

/-- Second loop of `get_reduct`, which reads and writes the mark of each active
argument. -/
def flipMarks (array : List Nat) (marks : List UInt8) : M (List Nat × List UInt8) := do
  let mut reductArray : List Nat := []
  let mut bits := marks
  for arg in array do
    let mark ← load bits arg
    if mark = 0 then
      bits ← store bits arg 1
      reductArray := reductArray ++ [arg]
    else
      bits ← store bits arg 0
  return (reductArray, bits)

def getReduct (af : AF) (active : IterableBitSet) (arguments : List Nat) : M IterableBitSet := do
  let marks ← markRemoved af arguments
  let (reductArray, reductBitset) ← flipMarks active.array marks
  return ⟨reductArray, reductBitset⟩

/-- `admissible_nonempty`: the lists of attackers are read for active arguments, the
bits for their attackers. -/
def admissibleNonempty (af : AF) (active : IterableBitSet) (solver : CadicalSatSolver) :
    M CadicalSatSolver := do
  let mut solver := solver
  let mut nonEmptyClause : List Int := []
  for arg in active.array do
    nonEmptyClause := nonEmptyClause ++ [af.acceptedVar arg]
    solver ← solver.addClause2 (-af.acceptedVar arg) (-af.rejectedVar arg)
    let mut outClause : List Int := []
    let attackers ← load af.attackers arg
    for attacker in attackers do
      let bit ← load active.bitset attacker
      if bit != 0 then
        solver ← solver.addClause2 (-af.acceptedVar arg) (af.rejectedVar attacker)
        outClause := outClause ++ [af.acceptedVar attacker]
    outClause := outClause ++ [-af.rejectedVar arg]
    solver ← solver.addClause outClause
  solver.addClause nonEmptyClause

/-- Body of the inner loop of `enumerate_initial`, which reads the model at each
active argument. -/
def excludeModel (af : AF) (active : IterableBitSet) (solver : CadicalSatSolver) :
    M CadicalSatSolver := do
  let mut next := solver
  let mut minimizationClause : List Int := []
  for arg in active.array do
    let accepted ← load solver.model arg
    if accepted then
      minimizationClause := minimizationClause ++ [-af.acceptedVar arg]
    else
      next ← next.assume (-af.acceptedVar arg)
  next.addClause minimizationClause

def minimizeModel (af : AF) (active : IterableBitSet) :
    Nat → CadicalSatSolver → Bool → M (CadicalSatSolver × Bool)
  | 0, _, _ => .fail .outOfFuel
  | fuel + 1, solver, foundExtension => do
      let (sat, solver) ← solver.solve
      if sat = unsatV then return (solver, foundExtension)
      else
        let solver ← excludeModel af active solver
        minimizeModel af active fuel solver true

/-- The loop that collects the extension from the model, once it cannot be made
smaller. -/
def extensionOf (active : IterableBitSet) (solver : CadicalSatSolver) : M (List Nat) := do
  let mut extension : List Nat := []
  for arg in active.array do
    let accepted ← load solver.model arg
    if accepted then
      extension := extension ++ [arg]
  return extension

def enumerateModels (af : AF) (active : IterableBitSet) :
    Nat → CadicalSatSolver → List (List Nat) → M (List (List Nat))
  | 0, _, _ => .fail .outOfFuel
  | fuel + 1, solver, result => do
      let (solver, foundExtension) ← minimizeModel af active (fuel + 1) solver false
      if foundExtension then
        let extension ← extensionOf active solver
        Program.log (.push extension)
        enumerateModels af active fuel solver (result ++ [extension])
      else return result

def enumerateInitial (fuel : Nat) (af : AF) (active : IterableBitSet) : M (List (List Nat)) := do
  if active.array.isEmpty then return []
  else
    let solver ← CadicalSatSolver.new (toInt32 af.args)
    let solver ← admissibleNonempty af active solver
    enumerateModels af active fuel solver []

/-- The loop that copies the sequence and puts the set behind it. The new vector is
created with its final size and then filled. -/
def extend (sequence : Sequence) (set : List Nat) : M Sequence := do
  let mut newSequence : Sequence := List.replicate (sequence.length + 1) []
  for i in List.range sequence.length do
    let entry ← load sequence i
    newSequence ← store newSequence i entry
  store newSequence sequence.length set

/-- The loop that looks for an attacker with its bit set, and is left at the first
one. -/
def isAttacked (af : AF) (active : IterableBitSet) (arg : Nat) : M Bool := do
  let mut attacked := false
  let attackers ← load af.attackers arg
  for att in attackers do
    let bit ← load active.bitset att
    if bit != 0 then
      attacked := true
      break
  return attacked

def enumerateSequencesAdmissibleFrom (af : AF) (preferred : Bool) :
    Nat → IterableBitSet → Sequence → M Unit
  | 0, _, _ => .fail .outOfFuel
  | fuel + 1, active, sequence => do
      let mut isMaximal := true
      let initialSets ← enumerateInitial (fuel + 1) af active
      for set in initialSets do
        isMaximal := false
        let newSequence ← extend sequence set
        let newActive ← getReduct af active set
        Program.log (.recurse active set newActive newSequence)
        enumerateSequencesAdmissibleFrom af preferred fuel newActive newSequence
      if !preferred || isMaximal then
        printSequence sequence

def enumerateSequencesCompleteFrom (af : AF) : Nat → IterableBitSet → Sequence → M Unit
  | 0, _, _ => .fail .outOfFuel
  | fuel + 1, active, sequence => do
      let mut hasUnattackedInitialset := false
      let initialSets ← enumerateInitial (fuel + 1) af active
      for set in initialSets do
        if set.length = 1 then
          let first ← load set 0
          let attacked ← isAttacked af active first
          hasUnattackedInitialset := hasUnattackedInitialset || !attacked
        let newSequence ← extend sequence set
        let newActive ← getReduct af active set
        Program.log (.recurse active set newActive newSequence)
        enumerateSequencesCompleteFrom af fuel newActive newSequence
      if !hasUnattackedInitialset then
        printSequence sequence

def enumerateSequencesStrongAdmissibleFrom (af : AF) (grounded : Bool) :
    Nat → IterableBitSet → Sequence → M Unit
  | 0, _, _ => .fail .outOfFuel
  | fuel + 1, active, sequence => do
      let mut isMaximal := true
      for arg in active.array do
        let attacked ← isAttacked af active arg
        if attacked then
          continue
        isMaximal := false
        let set := [arg]
        let newSequence ← extend sequence set
        let newActive ← getReduct af active set
        Program.log (.recurse active set newActive newSequence)
        enumerateSequencesStrongAdmissibleFrom af grounded fuel newActive newSequence
      if !grounded || isMaximal then
        printSequence sequence

def enumerateSequencesStableFrom (af : AF) : Nat → IterableBitSet → Sequence → M Unit
  | 0, _, _ => .fail .outOfFuel
  | fuel + 1, active, sequence => do
      if active.array.isEmpty then
        printSequence sequence
        return
      let initialSets ← enumerateInitial (fuel + 1) af active
      for set in initialSets do
        let newSequence ← extend sequence set
        let newActive ← getReduct af active set
        Program.log (.recurse active set newActive newSequence)
        enumerateSequencesStableFrom af fuel newActive newSequence

/-- The vector `attackers` of `src/ES-UC.cpp`, read at attackers and written at
them. -/
def activeAttackers (af : AF) (active : IterableBitSet) (set : List Nat) : M (List UInt8) := do
  let mut attackers : List UInt8 := List.replicate af.args 0
  for arg in set do
    let sources ← load af.attackers arg
    for att in sources do
      let bit ← load active.bitset att
      attackers ← store attackers att bit
  return attackers

/-- The two loops that look for an initial set which attacks the given one, with the
`break` of each. -/
def isChallenged (af : AF) (active : IterableBitSet) (initialSets : List (List Nat))
    (set : List Nat) : M Bool := do
  let mut challenged := false
  let attackers ← activeAttackers af active set
  for set2 in initialSets do
    for arg in set2 do
      let bit ← load attackers arg
      if bit != 0 then
        challenged := true
        break
    if challenged then
      break
  return challenged

def enumerateSequencesUnchallengedFrom (af : AF) (maximal : Bool) :
    Nat → IterableBitSet → Sequence → M Unit
  | 0, _, _ => .fail .outOfFuel
  | fuel + 1, active, sequence => do
      let mut isMaximal := true
      let initialSets ← enumerateInitial (fuel + 1) af active
      for set in initialSets do
        let challenged ← isChallenged af active initialSets set
        if challenged then
          continue
        isMaximal := false
        let newSequence ← extend sequence set
        let newActive ← getReduct af active set
        Program.log (.recurse active set newActive newSequence)
        enumerateSequencesUnchallengedFrom af maximal fuel newActive newSequence
      if !maximal || isMaximal then
        printSequence sequence

/-- The scan of the last set, which reads what each of its members attacks. -/
def scanLastSet (af : AF) (argument : Nat) : List Nat → M (Option Bool)
  | [] => pure none
  | arg :: set => do
      if argument = arg then return some true
      else
        let attacked ← load af.attacked arg
        if argument ∈ attacked then return some false
        else scanLastSet af argument set

/-- The scan at the start of a call, which needs a set to look at. The index of the
last set is computed only if there is one. -/
def scanSequence (af : AF) (argument : Nat) (sequence : Sequence) : M (Option Bool) := do
  if sequence.isEmpty then return none
  else
    let set ← load sequence (sequence.length - 1)
    scanLastSet af argument set

def sequencesArgumentAdmissibleFrom (af : AF) (argument : Nat) :
    Nat → IterableBitSet → Sequence → M Unit
  | 0, _, _ => .fail .outOfFuel
  | fuel + 1, active, sequence => do
      let found ← scanSequence af argument sequence
      match found with
      | some true => printSequence sequence
      | some false => return
      | none =>
        let initialSets ← enumerateInitial (fuel + 1) af active
        for set in initialSets do
          let newSequence ← extend sequence set
          let newActive ← getReduct af active set
          Program.log (.recurse active set newActive newSequence)
          sequencesArgumentAdmissibleFrom af argument fuel newActive newSequence

end SerialisationSolver.Checked
