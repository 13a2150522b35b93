import SerialisationSolver.Model.Framework

/-! `get_cone` of `include/Algorithms.h`: the arguments with a path of attacks to
a given one. -/
namespace SerialisationSolver

/-- An argument is marked and collected when it comes from the stack for the first
time. Later it is on the stack in vain, apart from its attackers being looked at
again. -/
def visit (cone : IterableBitSet) (arg : Nat) : IterableBitSet :=
  if !cone.test arg then ⟨cone.array ++ [arg], cone.bitset.set arg 1⟩ else cone

/-- The loop over the attackers; the top of the stack is the head of the list. Only
active attackers that are not marked are pushed. -/
def pushAttackers (af : AF) (active cone : IterableBitSet) (arg : Nat) (stack : List Nat) :
    List Nat :=
  (af.attackersOf arg).foldl (fun stack attacker =>
    if !cone.test attacker && active.test attacker then attacker :: stack else stack) stack

/-- `while (!stack.empty())`; the cone is `cone_array` with `cone_bitset`. Each pass
takes one argument from the stack and uses up one unit of fuel. -/
def coneLoop (af : AF) (active : IterableBitSet) :
    Nat → List Nat → IterableBitSet → Except Fault IterableBitSet
  | _, [], cone => .ok cone
  | 0, _ :: _, _ => .error .outOfFuel
  | fuel + 1, arg :: stack, cone =>
      coneLoop af active fuel (pushAttackers af active (visit cone arg) arg stack) (visit cone arg)

/-- `get_cone`: the argument itself and everything with a path of attacks to it
among the active arguments. For an argument that is not active the source exits. -/
def getCone (fuel : Nat) (af : AF) (active : IterableBitSet) (argument : Nat) :
    Except Fault IterableBitSet :=
  if !active.test argument then .error .exit
  else coneLoop af active fuel [argument] ⟨[], List.replicate af.args 0⟩

end SerialisationSolver
