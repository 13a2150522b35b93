import Mathlib.Data.List.GetD
import Mathlib.Data.List.Basic

/-! Lists written between brackets, and lists in which a terminator follows each
item. What is written can be read back, whatever comes after it. -/
namespace Delimited

variable {α Item : Type*}

/-- A reader takes one item from the front of a text and returns what comes after
it, or refuses the text. -/
abbrev Reader (α Item : Type*) := List α → Option (Item × List α)

/-- A written item is read back when what comes after it satisfies `follows`.
Numbers need this, as digits after a number would belong to it. -/
def ReadsBack (read : Reader α Item) (write : Item → List α) (follows : List α → Prop)
    (item : Item) : Prop := ∀ rest, follows rest → read (write item ++ rest) = some (item, rest)

/-- The written item does not begin like something else, so that a reader can tell
the two apart by one symbol. -/
def OpensWithout (other : α) (write : Item → List α) (item : Item) : Prop :=
  ∃ c text, write item = c :: text ∧ c ≠ other

/-- Three symbols for a list: two brackets and a separator that is different from
the right one. The left one may be the same as either. -/
structure Brackets (α : Type*) where
  left : α
  separator : α
  right : α
  separator_ne_right : separator ≠ right

namespace Brackets

variable (b : Brackets α)

def writeMore (write : Item → List α) (items : List Item) : List α :=
  items.flatMap fun item => b.separator :: write item

/-- The list between its brackets, with a separator between two items and none after
the last. -/
def write (write : Item → List α) : List Item → List α
  | [] => [b.left, b.right]
  | item :: items => b.left :: (write item ++ b.writeMore write items ++ [b.right])

/-- The written form of a list that is not empty, as the lemmas about reading take
it apart. -/
theorem write_cons (write : Item → List α) (item : Item) (items : List Item) :
    b.write write (item :: items) = b.left :: (write item ++ b.writeMore write items ++
      [b.right]) := rfl

/-- A loop over the indices that writes a separator after all items but the last.
Programs tend to write lists in this way. -/
def writeLoop (write : Item → List α) (default : Item) (items : List Item)
    (out : List α) : List α :=
  (List.range items.length).foldl (fun out i =>
    let out := out ++ write (items.getD i default)
    if i ≠ items.length - 1 then out ++ [b.separator] else out) out

/-- What such a loop appends to its output: the first item, and the others behind
their separators. By induction on the list, from its end. -/
theorem writeLoop_cons (write : Item → List α) (default item : Item) (items : List Item)
    (out : List α) :
    b.writeLoop write default (item :: items) out = out ++ write item ++
      b.writeMore write items := by
  induction items generalizing item out with
  | nil => simp [writeLoop, writeMore]
  | cons next items ih =>
      have hRest := ih next (out ++ write item ++ [b.separator])
      simp only [writeLoop, List.length_cons] at hRest ⊢
      rw [List.range_succ_eq_map, List.foldl_cons, List.foldl_map]
      have hShift : ∀ i : Nat, i + 1 ≠ items.length + 1 + 1 - 1 ↔
          i ≠ items.length + 1 - 1 := by omega
      have hFirst : 0 ≠ items.length + 1 + 1 - 1 := by omega
      simp only [List.getD_cons_succ, List.getD_cons_zero, hShift, if_pos hFirst, hRest]
      simp [writeMore]

/-- The loop between brackets writes the list. For the empty list the loop makes no
pass and the index of the last item is never looked at. -/
theorem writeLoop_eq (write : Item → List α) (default : Item) (items : List Item) :
    b.writeLoop write default items [b.left] ++ [b.right] = b.write write items := by
  cases items with
  | nil => rfl
  | cons item items => simp [writeLoop_cons, write_cons]

variable [DecidableEq α]

/-- The items up to the closing bracket, at least one of them. The fuel bounds their
number, and any text is long enough to give it. -/
def readMore (read : Reader α Item) : Nat → Reader α (List Item)
  | 0, _ => none
  | fuel + 1, text =>
      match read text with
      | some (item, c :: rest) =>
          if c = b.separator then
            (readMore read fuel rest).map fun (items, rest) => (item :: items, rest)
          else if c = b.right then some ([item], rest) else none
      | _ => none

/-- A list between brackets. After the left one either the right one follows or at
least one item does. -/
def read (read : Reader α Item) : Reader α (List Item)
  | c :: d :: text =>
      if c = b.left then
        if d = b.right then some ([], text) else b.readMore read (text.length + 1) (d :: text)
      else none
  | _ => none

/-- What may come after an item between the brackets: a separator or the right
bracket. -/
def Follows (rest : List α) : Prop := rest.head? = some b.separator ∨ rest.head? = some b.right

variable {b} {read : Reader α Item} {write : Item → List α}

/-- Items that can be read back are read back one after the other, up to the bracket
and not any further. -/
theorem readMore_write {item : Item} {items : List Item} {fuel : Nat} (hFuel : items.length < fuel)
    (hItems : ∀ other ∈ item :: items, ReadsBack read write b.Follows other) (rest : List α) :
    b.readMore read fuel (write item ++ b.writeMore write items ++ b.right :: rest) =
      some (item :: items, rest) := by
  induction items generalizing item fuel with
  | nil =>
      obtain ⟨fuel, rfl⟩ : ∃ more, fuel = more + 1 := ⟨fuel - 1, by omega⟩
      have hItem := hItems item List.mem_cons_self (b.right :: rest) (Or.inr rfl)
      have hNe := b.separator_ne_right.symm
      simp [writeMore, readMore, hItem, hNe]
  | cons next items ih =>
      rw [List.length_cons] at hFuel
      obtain ⟨fuel, rfl⟩ : ∃ more, fuel = more + 1 := ⟨fuel - 1, by omega⟩
      have hMore := ih (show items.length < fuel by omega)
        fun other hOther => hItems other (List.mem_cons_of_mem item hOther)
      have hItem := hItems item List.mem_cons_self
        (b.separator :: (write next ++ b.writeMore write items ++ b.right :: rest)) (Or.inl rfl)
      have hSplit : write item ++ b.writeMore write (next :: items) ++ b.right :: rest =
          write item ++ b.separator :: (write next ++ b.writeMore write items ++
            b.right :: rest) := by
        simp [writeMore]
      rw [hSplit, readMore, hItem]
      simp only [if_true, hMore, Option.map_some]

omit [DecidableEq α] in
theorem length_writeMore_le {items : List Item} :
    items.length ≤ (b.writeMore write items).length := by
  induction items with
  | nil => exact Nat.zero_le _
  | cons item items ih =>
      simp only [writeMore, List.flatMap_cons, List.length_append, List.length_cons] at ih ⊢
      omega

/-- A list between brackets is read back, if its items are. The items must not begin
like the right bracket, or an empty list would be read. -/
theorem read_write {items : List Item}
    (hItems : ∀ item ∈ items, ReadsBack read write b.Follows item)
    (hOpens : ∀ item ∈ items, OpensWithout b.right write item) :
    ReadsBack (b.read read) (b.write write) (fun _ => True) items := by
  intro rest _
  cases items with
  | nil => simp [Brackets.write, Brackets.read]
  | cons item items =>
      obtain ⟨c, text, hWritten, hNe⟩ := hOpens item List.mem_cons_self
      have hLength : items.length < (text ++ b.writeMore write items ++
          b.right :: rest).length + 1 := by
        have hMore : items.length ≤ (b.writeMore write items).length := length_writeMore_le
        simp only [List.length_append]
        omega
      have hMore := readMore_write hLength hItems rest
      rw [hWritten] at hMore
      simpa [Brackets.write, Brackets.read, hWritten, hNe] using hMore

end Brackets

section Terminated

variable {terminator stop : α} {read : Reader α Item} {write : Item → List α}

/-- Items with a terminator after each of them, the last one included. -/
def writeEach (terminator : α) (write : Item → List α) (items : List Item) : List α :=
  items.flatMap fun item => write item ++ [terminator]

/-- Items up to the stop, each with its terminator. What comes after the stop is
left over. -/
def readEach [DecidableEq α] (terminator stop : α) (read : Reader α Item) :
    Nat → Reader α (List Item)
  | fuel + 1, c :: text =>
      if c = stop then some ([], text)
      else match read (c :: text) with
        | some (item, d :: rest) =>
            if d = terminator then
              (readEach terminator stop read fuel rest).map fun (items, rest) =>
                (item :: items, rest)
            else none
        | _ => none
  | _, _ => none

theorem length_le_writeEach {items : List Item} :
    items.length ≤ (writeEach terminator write items).length := by
  induction items with
  | nil => exact Nat.zero_le _
  | cons item items ih =>
      simp only [writeEach, List.flatMap_cons, List.length_append, List.length_cons] at ih ⊢
      omega

/-- Terminated items that can be read back are read back up to the stop, whatever
comes after it. -/
theorem readEach_writeEach [DecidableEq α] {items : List Item} {fuel : Nat}
    (hFuel : items.length < fuel)
    (hItems : ∀ item ∈ items, ReadsBack read write (fun rest => rest.head? = some terminator) item)
    (hOpens : ∀ item ∈ items, OpensWithout stop write item) (rest : List α) :
    readEach terminator stop read fuel (writeEach terminator write items ++ stop :: rest) =
      some (items, rest) := by
  induction items generalizing fuel with
  | nil =>
      obtain ⟨fuel, rfl⟩ : ∃ more, fuel = more + 1 := ⟨fuel - 1, by omega⟩
      simp [writeEach, readEach]
  | cons item items ih =>
      rw [List.length_cons] at hFuel
      obtain ⟨fuel, rfl⟩ : ∃ more, fuel = more + 1 := ⟨fuel - 1, by omega⟩
      rw [List.forall_mem_cons] at hItems hOpens
      have hMore := ih (show items.length < fuel by omega) hItems.2 hOpens.2
      obtain ⟨c, text, hWritten, hNe⟩ := hOpens.1
      have hItem := hItems.1 (terminator :: (writeEach terminator write items ++ stop :: rest)) rfl
      rw [hWritten, List.cons_append] at hItem
      have hSplit : writeEach terminator write (item :: items) ++ stop :: rest =
          c :: (text ++ terminator :: (writeEach terminator write items ++ stop :: rest)) := by
        simp [writeEach, hWritten]
      rw [hSplit, readEach, if_neg hNe, hItem]
      simp only [if_true, hMore, Option.map_some]

end Terminated

end Delimited
