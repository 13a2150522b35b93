import Mathlib.Algebra.Group.Int.Defs
import Mathlib.Algebra.Group.Nat.Defs
import Mathlib.Data.List.Range
import Mathlib.Data.Int.Order.Basic
import Mathlib.Data.List.Basic

/-! Argumentation frameworks, sets of active arguments and reducts, as in
`include/AF.h`, `src/AF.cpp`, `include/IterableBitSet.h` and
`include/Algorithms.h`. Vectors are lists, and an argument is its index. -/
namespace SerialisationSolver

/-- Ways in which an execution ends without its result. `outOfFuel` is the only one
without a counterpart in the program: it stops a loop of the model early. -/
inductive Fault where
  | outOfFuel
  /-- a vector is indexed outside of its size -/
  | outOfRange
  /-- a vector is created with a negative size -/
  | lengthError
  /-- the solver rejects a literal, or negating one left the range of `int` -/
  | invalidLiteral
  /-- the solver is used in a state that does not allow the call -/
  | apiState
  /-- a signed counter runs over -/
  | overflow
  /-- `exit(1)` -/
  | exit
  deriving DecidableEq, Repr

/-- The `int32_t` with the same bits as a `uint32_t`. From `2 ^ 31` on this is a
negative number, which is how the source's conversions behave. -/
def toInt32 (n : Nat) : Int := Int.bmod n (2 ^ 32)

/-- Class `AF`: the number of arguments, and for each argument the list of its
attackers and the list of what it attacks. An argument is its index in both vectors. -/
structure AF where
  args : Nat
  attackers : List (List Nat)
  attacked : List (List Nat)
  deriving DecidableEq, Repr

namespace AF

/-- The constructor `AF()`: no arguments, and empty vectors. -/
def empty : AF := ⟨0, [], []⟩

/-- `set_arguments`: `resize` keeps the first entries and fills up with empty lists.
Entries beyond the new size are cut off, with the attacks in them. -/
def setArguments (af : AF) (nArgs : Nat) : AF where
  args := nArgs
  attackers := af.attackers.takeD nArgs []
  attacked := af.attacked.takeD nArgs []

/-- `add_attack` appends to both adjacency lists. The subscripts are not checked in
the source; a write outside of the vectors is the fault `outOfRange`. -/
def addAttack (af : AF) (source target : Nat) : Except Fault AF :=
  if target < af.attackers.length ∧ source < af.attacked.length then
    .ok { af with
      attackers := af.attackers.modify target (· ++ [source])
      attacked := af.attacked.modify source (· ++ [target]) }
  else .error .outOfRange

/-- `set_arguments` on the empty framework, then one `add_attack` for each pair. An
attack may be given several times and is then in the lists several times. -/
def build (nArgs : Nat) (attacks : List (Nat × Nat)) : Except Fault AF :=
  attacks.foldlM (fun af (source, target) => af.addAttack source target) (empty.setArguments nArgs)

/-- `attackers[arg]`, where reading outside of the vector yields the empty list. -/
def attackersOf (af : AF) (arg : Nat) : List Nat := af.attackers.getD arg []

/-- `attacked[arg]`, where reading outside of the vector yields the empty list. -/
def attackedBy (af : AF) (arg : Nat) : List Nat := af.attacked.getD arg []

/-- `accepted_var`: arguments are numbered from one on. The sum is computed in
`uint32_t` and returned as an `int32_t`. -/
def acceptedVar (_ : AF) (arg : Nat) : Int := toInt32 (arg + 1)

/-- `rejected_var`: the numbers behind those of `accepted_var`. With `2 ^ 30`
arguments or more some of these sums are no `int32_t` any more. -/
def rejectedVar (af : AF) (arg : Nat) : Int := toInt32 (af.args + arg + 1)

/-- The attack relation of the framework, as its lists of attackers give it. -/
def Attacks (af : AF) (a b : Nat) : Prop := a ∈ af.attackersOf b

instance (af : AF) (a b : Nat) : Decidable (af.Attacks a b) :=
  inferInstanceAs (Decidable (a ∈ af.attackersOf b))

/-- All arguments, whether or not they take part in an attack, as the set that the
semantics are about. -/
def arguments (af : AF) : Set Nat := {a | a < af.args}

/-- Both adjacency lists have an entry for every argument, name arguments only and
agree. The bound on `args` is the range of its type `uint32_t`. -/
structure WellFormed (af : AF) : Prop where
  args_lt : af.args < 2 ^ 32
  attackers_length : af.attackers.length = af.args
  attacked_length : af.attacked.length = af.args
  attackers_lt : ∀ a b, a ∈ af.attackersOf b → a < af.args
  attacked_lt : ∀ a b, b ∈ af.attackedBy a → b < af.args
  consistent : ∀ a b, a ∈ af.attackersOf b ↔ b ∈ af.attackedBy a

end AF

/-- Class `IterableBitSet`: the active arguments in an order, and a byte for each
argument that tells whether it is active. The class does not keep the two in step by
itself. -/
structure IterableBitSet where
  array : List Nat
  bitset : List UInt8
  deriving DecidableEq, Repr

namespace IterableBitSet

/-- The test `if (_bitset[arg])`. Any byte other than zero counts as set. -/
def test (active : IterableBitSet) (arg : Nat) : Bool := active.bitset.getD arg 0 != 0

/-- All arguments active, as `parse_i23` returns them after one header. -/
def full (nArgs : Nat) : IterableBitSet := ⟨List.range nArgs, List.replicate nArgs 1⟩

/-- The active arguments are pairwise different and in range, and their bits are
set. Other bits may be set as well, as `get_reduct` leaves some of them behind. -/
structure Valid (active : IterableBitSet) (af : AF) : Prop where
  nodup : active.array.Nodup
  lt_args : ∀ a ∈ active.array, a < af.args
  covers : ∀ a ∈ active.array, active.test a = true

/-- The bits are those of the active arguments and no others. This is what the class
is meant to guarantee, and what a reduct may lose. -/
def Exact (active : IterableBitSet) : Prop := ∀ a, active.test a = true ↔ a ∈ active.array

/-- The active arguments as a set, which is what the notions of argumentation are
about. -/
def actives (active : IterableBitSet) : Set Nat := {a | a ∈ active.array}

/-- The arguments whose bit is set although they are not active. The encoding takes
them for active attackers. -/
def stales (active : IterableBitSet) : Set Nat := {a | active.test a = true ∧ a ∉ active.array}

end IterableBitSet

/-- First loop of `get_reduct`: mark the given arguments and all they attack.
Arguments that are not active any more are marked like the others. -/
def markRemoved (af : AF) (arguments : List Nat) : List UInt8 :=
  arguments.foldl (fun bits arg1 =>
    (af.attackedBy arg1).foldl (fun bits arg2 => bits.set arg2 1) (bits.set arg1 1))
    (List.replicate af.args 0)

/-- Second loop of `get_reduct`: the marks of the active arguments are turned into
membership bits in place, and the unmarked arguments are collected. Marks of other
arguments stay as they are. -/
def flipMarks (array : List Nat) (marks : List UInt8) : List Nat × List UInt8 :=
  array.foldl (fun (reductArray, bits) arg =>
    if bits.getD arg 0 = 0 then (reductArray ++ [arg], bits.set arg 1)
    else (reductArray, bits.set arg 0)) ([], marks)

/-- `get_reduct`: the reduct of the active arguments by the given ones. The marks
that the second loop does not visit end up as bits of the result. -/
def getReduct (af : AF) (active : IterableBitSet) (arguments : List Nat) : IterableBitSet :=
  let (reductArray, reductBitset) := flipMarks active.array (markRemoved af arguments)
  ⟨reductArray, reductBitset⟩

end SerialisationSolver
