import SerialisationSolver.Model.SatSolver

/-! What `print_extension` and `print_sequence` of `include/AF.h` write. -/
namespace SerialisationSolver.Output

/-- The loop that both functions share: a comma after all items but the last. The
index of the last item is computed in `size_t`, and looked at only if there is an
item. -/
def printItems {Item : Type} (print : Item → List Char) (default : Item) (items : List Item)
    (out : List Char) : List Char :=
  (List.range items.length).foldl (fun out i =>
    let out := out ++ print (items.getD i default)
    if i ≠ items.length - 1 then out ++ [','] else out) out

/-- `std::cout << arg + 1` for an argument of type `uint32_t`, in decimal digits.
The output counts arguments from one on, like the files. -/
def printArgument (arg : Nat) : List Char := Nat.toDigits 10 ((arg + 1) % 2 ^ 32)

/-- `print_extension`: the arguments of the set in square brackets, in the order of
the vector. -/
def printExtension (extension : List Nat) : List Char :=
  printItems printArgument 0 extension ['['] ++ [']']

/-- `print_sequence`: the sets of the sequence in round brackets, in the order in
which they were picked. -/
def printSequence (sequence : Sequence) : List Char :=
  printItems printExtension [] sequence ['('] ++ [')']

end SerialisationSolver.Output
