import SerialisationSolver.Model.InitialSets

/-! The recursive enumerators `src/ES-AD.cpp`, `src/ES-CO.cpp`,
`src/ES-GR.cpp`, `src/ES-ST.cpp`, `src/ES-UC.cpp` and `src/AS-AD.cpp`. The
overload with a sequence is the recursion, the overload without one its start. -/
namespace SerialisationSolver

open Interaction

/-- `print_sequence` and the comma behind it, as one event. The characters are those
of `Output.printSequence`. -/
def printSequence (sequence : Sequence) : M Unit := Program.log (.print sequence)

/-- Some attacker of the argument has its bit set. Attackers that are not active
count if their bit was left behind. -/
def isAttacked (af : AF) (active : IterableBitSet) (arg : Nat) : Bool :=
  (af.attackersOf arg).any active.test

/-- `enumerate_sequences_admissible` with a sequence. A call is made for each
initial set, and the sequence itself is printed afterwards, unless only those
without a further set are wanted. -/
def enumerateSequencesAdmissibleFrom (af : AF) (preferred : Bool) :
    Nat → IterableBitSet → Sequence → M Unit
  | 0, _, _ => .fail .outOfFuel
  | fuel + 1, active, sequence => do
      let mut isMaximal := true
      let initialSets ← enumerateInitial (fuel + 1) af active
      for set in initialSets do
        isMaximal := false
        let newSequence := sequence ++ [set]
        let newActive := getReduct af active set
        Program.log (.recurse active set newActive newSequence)
        enumerateSequencesAdmissibleFrom af preferred fuel newActive newSequence
      if !preferred || isMaximal then
        printSequence sequence

/-- The overload without a sequence starts the recursion with the empty one. -/
def enumerateSequencesAdmissible (fuel : Nat) (af : AF) (active : IterableBitSet)
    (preferred : Bool) : M Unit :=
  enumerateSequencesAdmissibleFrom af preferred fuel active []

/-- `enumerate_sequences_complete` with a sequence, which is printed if no initial
set holds a single unattacked argument. All initial sets are followed in any case. -/
def enumerateSequencesCompleteFrom (af : AF) : Nat → IterableBitSet → Sequence → M Unit
  | 0, _, _ => .fail .outOfFuel
  | fuel + 1, active, sequence => do
      let mut hasUnattackedInitialset := false
      let initialSets ← enumerateInitial (fuel + 1) af active
      for set in initialSets do
        if set.length = 1 then
          hasUnattackedInitialset := hasUnattackedInitialset || !isAttacked af active (set.getD 0 0)
        let newSequence := sequence ++ [set]
        let newActive := getReduct af active set
        Program.log (.recurse active set newActive newSequence)
        enumerateSequencesCompleteFrom af fuel newActive newSequence
      if !hasUnattackedInitialset then
        printSequence sequence

def enumerateSequencesComplete (fuel : Nat) (af : AF) (active : IterableBitSet) : M Unit :=
  enumerateSequencesCompleteFrom af fuel active []

/-- `enumerate_sequences_strong_admissible` with a sequence. No solver is needed:
the sets are the single arguments without an attacker whose bit is set. -/
def enumerateSequencesStrongAdmissibleFrom (af : AF) (grounded : Bool) :
    Nat → IterableBitSet → Sequence → M Unit
  | 0, _, _ => .fail .outOfFuel
  | fuel + 1, active, sequence => do
      let mut isMaximal := true
      for arg in active.array do
        if isAttacked af active arg then
          continue
        isMaximal := false
        let set := [arg]
        let newSequence := sequence ++ [set]
        let newActive := getReduct af active set
        Program.log (.recurse active set newActive newSequence)
        enumerateSequencesStrongAdmissibleFrom af grounded fuel newActive newSequence
      if !grounded || isMaximal then
        printSequence sequence

def enumerateSequencesStrongAdmissible (fuel : Nat) (af : AF) (active : IterableBitSet)
    (grounded : Bool) : M Unit :=
  enumerateSequencesStrongAdmissibleFrom af grounded fuel active []

/-- `enumerate_sequences_stable` with a sequence, which is printed once nothing is
active any more. -/
def enumerateSequencesStableFrom (af : AF) : Nat → IterableBitSet → Sequence → M Unit
  | 0, _, _ => .fail .outOfFuel
  | fuel + 1, active, sequence => do
      if active.array.isEmpty then
        printSequence sequence
        return
      let initialSets ← enumerateInitial (fuel + 1) af active
      for set in initialSets do
        let newSequence := sequence ++ [set]
        let newActive := getReduct af active set
        Program.log (.recurse active set newActive newSequence)
        enumerateSequencesStableFrom af fuel newActive newSequence

def enumerateSequencesStable (fuel : Nat) (af : AF) (active : IterableBitSet) : M Unit :=
  enumerateSequencesStableFrom af fuel active []

/-- The vector `attackers` of `src/ES-UC.cpp`: for each attacker of the set its bit
among the active arguments, and zero for all other arguments. -/
def activeAttackers (af : AF) (active : IterableBitSet) (set : List Nat) : List UInt8 :=
  set.foldl (fun attackers arg =>
    (af.attackersOf arg).foldl (fun attackers att =>
      attackers.set att (active.bitset.getD att 0)) attackers)
    (List.replicate af.args 0)

/-- Some initial set has a member among these attackers. The set itself is among
those that are looked at. -/
def isChallenged (af : AF) (active : IterableBitSet) (initialSets : List (List Nat))
    (set : List Nat) : Bool :=
  let attackers := activeAttackers af active set
  initialSets.any fun set2 => set2.any fun arg => attackers.getD arg 0 != 0

/-- `enumerate_sequences_unchallenged` with a sequence. Initial sets that another
one attacks are skipped, and do not count when the end of a sequence is decided. -/
def enumerateSequencesUnchallengedFrom (af : AF) (maximal : Bool) :
    Nat → IterableBitSet → Sequence → M Unit
  | 0, _, _ => .fail .outOfFuel
  | fuel + 1, active, sequence => do
      let mut isMaximal := true
      let initialSets ← enumerateInitial (fuel + 1) af active
      for set in initialSets do
        if isChallenged af active initialSets set then
          continue
        isMaximal := false
        let newSequence := sequence ++ [set]
        let newActive := getReduct af active set
        Program.log (.recurse active set newActive newSequence)
        enumerateSequencesUnchallengedFrom af maximal fuel newActive newSequence
      if !maximal || isMaximal then
        printSequence sequence

def enumerateSequencesUnchallenged (fuel : Nat) (af : AF) (active : IterableBitSet)
    (maximal : Bool) : M Unit :=
  enumerateSequencesUnchallengedFrom af maximal fuel active []

/-- The scan of the last set: `some true` if it reaches the argument, `some false`
if a member that attacks the argument comes first, `none` otherwise. -/
def scanLastSet (af : AF) (argument : Nat) : List Nat → Option Bool
  | [] => none
  | arg :: set =>
      if argument = arg then some true
      else if argument ∈ af.attackedBy arg then some false
      else scanLastSet af argument set

/-- `sequences_argument_admissible` with a sequence. The last set decides: the
sequence is printed if it contains the argument, given up if it attacks it, and
prolonged otherwise. -/
def sequencesArgumentAdmissibleFrom (af : AF) (argument : Nat) :
    Nat → IterableBitSet → Sequence → M Unit
  | 0, _, _ => .fail .outOfFuel
  | fuel + 1, active, sequence => do
      match scanLastSet af argument (sequence.getLastD []) with
      | some true => printSequence sequence
      | some false => return
      | none =>
        let initialSets ← enumerateInitial (fuel + 1) af active
        for set in initialSets do
          let newSequence := sequence ++ [set]
          let newActive := getReduct af active set
          Program.log (.recurse active set newActive newSequence)
          sequencesArgumentAdmissibleFrom af argument fuel newActive newSequence

def sequencesArgumentAdmissible (fuel : Nat) (af : AF) (active : IterableBitSet)
    (argument : Nat) : M Unit :=
  sequencesArgumentAdmissibleFrom af argument fuel active []

end SerialisationSolver
