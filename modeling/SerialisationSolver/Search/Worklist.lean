import Mathlib.Data.List.Nodup
import Mathlib.Logic.Relation

/-! Search with a stack of elements that are still to be taken. Elements are
marked when they are taken, not when they are pushed, so an element may be on
the stack several times, and whenever it is taken its unmarked neighbours are
pushed again. -/
namespace Worklist

variable {α : Type*}

/-- The top of the stack comes first; `visited` lists the marked elements in the
order in which they were marked. -/
structure State (α : Type*) where
  stack : List α
  visited : List α

/-- One element is to be taken and nothing is marked. -/
def start (x : α) : State α := ⟨[x], []⟩

/-- Reached from `x` through neighbours, in any number of steps, none included. -/
def Reaches (neighbours : α → List α) : α → α → Prop :=
  Relation.ReflTransGen fun x y => y ∈ neighbours x

/-- Everything that a marked element leads to is marked or will be taken. The
element that the search began with is one or the other as well. -/
structure Invariant (neighbours : α → List α) (x : α) (st : State α) : Prop where
  nodup : st.visited.Nodup
  reached : ∀ y, y ∈ st.visited ∨ y ∈ st.stack → Reaches neighbours x y
  first : x ∈ st.visited ∨ x ∈ st.stack
  closed : ∀ y ∈ st.visited, ∀ z ∈ neighbours y, z ∈ st.visited ∨ z ∈ st.stack

variable {neighbours : α → List α}

/-- At the beginning no element is marked, and the first one lies on the stack. -/
theorem invariant_start (x : α) : Invariant neighbours x (start x) where
  nodup := List.nodup_nil
  reached := by
    intro y hy
    obtain rfl : y = x := by simpa [start] using hy
    exact .refl
  first := by simp [start]
  closed := by simp [start]

/-- Once nothing is left to take, exactly what can be reached is marked: the marked
elements are closed under neighbours and contain the first one. -/
theorem Invariant.mem_iff {x : α} {visited : List α}
    (h : Invariant neighbours x ⟨[], visited⟩) (y : α) :
    y ∈ visited ↔ Reaches neighbours x y := by
  constructor
  · exact fun hy => h.reached y (Or.inl hy)
  · intro hReaches
    induction hReaches with
    | refl => exact h.first.resolve_right List.not_mem_nil
    | tail _ hNext ih => exact (h.closed _ ih _ hNext).resolve_right List.not_mem_nil

variable [DecidableEq α]

/-- An element is marked once, and then keeps its place in the list. -/
def mark (visited : List α) (x : α) : List α := if x ∈ visited then visited else visited ++ [x]

/-- What is pushed after `x` was taken: the neighbours that are not marked, where
`x` itself counts as marked by now. -/
def pushed (neighbours : α → List α) (visited : List α) (x : α) : List α :=
  (neighbours x).filter fun y => y ∉ mark visited x

/-- `x` is taken from the top of the stack. Its neighbours are pushed in their
order, so that the last one is on top. -/
def take (neighbours : α → List α) (x : α) (stack visited : List α) : State α :=
  ⟨(pushed neighbours visited x).reverse ++ stack, mark visited x⟩

/-- Take elements until the stack is empty. The fuel is only there to make this a
structural recursion; `loop_eq` says how much is enough. -/
def loop (neighbours : α → List α) : Nat → State α → Option (List α)
  | _, ⟨[], visited⟩ => some visited
  | 0, ⟨_ :: _, _⟩ => none
  | fuel + 1, ⟨x :: stack, visited⟩ => loop neighbours fuel (take neighbours x stack visited)

theorem mem_mark {visited : List α} {x y : α} : y ∈ mark visited x ↔ y ∈ visited ∨ y = x := by
  unfold mark
  split_ifs with hOld
  · grind
  · simp

theorem mark_nodup {visited : List α} (h : visited.Nodup) (x : α) : (mark visited x).Nodup := by
  unfold mark
  split_ifs with hOld
  · exact h
  · rw [← List.concat_eq_append]
    exact h.concat hOld

theorem mem_pushed {visited : List α} {x y : α} :
    y ∈ pushed neighbours visited x ↔ y ∈ neighbours x ∧ y ∉ visited ∧ y ≠ x := by
  simp [pushed, mem_mark]

/-- Taking an element keeps the invariant: its neighbours are marked or were pushed
now. -/
theorem Invariant.take {x y : α} {stack visited : List α}
    (h : Invariant neighbours x ⟨y :: stack, visited⟩) :
    Invariant neighbours x (take neighbours y stack visited) where
  nodup := mark_nodup h.nodup y
  reached := by
    have hHere : Reaches neighbours x y := h.reached y (Or.inr List.mem_cons_self)
    intro z hz
    simp only [Worklist.take, mem_mark, List.mem_append, List.mem_reverse, mem_pushed] at hz
    rcases hz with (hOld | rfl) | (hNew | hBelow)
    · exact h.reached z (Or.inl hOld)
    · exact hHere
    · exact hHere.tail hNew.1
    · exact h.reached z (Or.inr (List.mem_cons_of_mem y hBelow))
  first := by
    have hFirst := h.first
    simp only [Worklist.take, mem_mark, List.mem_append, List.mem_cons] at hFirst ⊢
    tauto
  closed := by
    intro z hz w hw
    have hClosed := h.closed z
    simp only [Worklist.take, mem_mark, List.mem_append, List.mem_reverse, mem_pushed,
      List.mem_cons] at hz hClosed ⊢
    cases hz with
    | inl hOld =>
        have hw' := hClosed hOld w hw
        tauto
    | inr hHere =>
        subst hHere
        tauto

section Termination

variable (range : List α) (bound : Nat)

/-- How many elements of the range are unmarked. Each of them costs the search one
round of its neighbours. -/
def unmarked (visited : List α) : Nat := (range.filter (· ∉ visited)).length

/-- What the top of the stack costs before it was marked, and after. A marked
element on top is the one case in which a step marks nothing and may still push. -/
def topSize (visited : List α) : List α → Nat
  | [] => bound
  | x :: _ => if x ∈ visited then bound else 0

/-- A bound on the steps that are left. Taking a marked element may push others;
what is on top then is unmarked, and `topSize` is no longer paid. -/
def size (st : State α) : Nat :=
  st.stack.length + bound * unmarked range st.visited + topSize bound st.visited st.stack

variable {range bound}

theorem unmarked_mark_le (visited : List α) (x : α) :
    unmarked range (mark visited x) ≤ unmarked range visited := by
  apply (List.monotone_filter_right range _).length_le
  intro y hy
  simp only [mem_mark, decide_eq_true_eq] at hy ⊢
  tauto

/-- Marking a new element of the range leaves fewer of them unmarked. -/
theorem unmarked_mark_lt {visited : List α} {x : α} (hx : x ∈ range) (hNew : x ∉ visited) :
    unmarked range (mark visited x) < unmarked range visited := by
  have hFilter : range.filter (· ∉ mark visited x) =
      (range.filter (· ∉ visited)).filter (· ≠ x) := by
    rw [List.filter_filter]
    apply List.filter_congr
    intro y _
    simp only [mem_mark, ← Bool.decide_and, decide_eq_decide]
    tauto
  rw [unmarked, hFilter]
  exact List.length_filter_lt_length_iff_exists.mpr ⟨x, by simp [hx, hNew], by simp⟩

theorem topSize_le (visited stack : List α) : topSize bound visited stack ≤ bound := by
  cases stack with
  | nil => exact Nat.le_refl _
  | cons x stack =>
      rw [topSize]
      split_ifs <;> omega

/-- Either nothing is pushed, or what is on top afterwards is unmarked. In both
cases one round of neighbours pays for it. -/
theorem pushed_add_topSize_le {x : α} {stack visited : List α}
    (hBound : (neighbours x).length ≤ bound) :
    (pushed neighbours visited x).length +
      topSize bound (mark visited x) (take neighbours x stack visited).stack ≤ bound := by
  rw [take]
  rcases List.eq_nil_or_concat (pushed neighbours visited x) with hNone | ⟨ys, y, hSome⟩
  · rw [hNone, List.length_nil, Nat.zero_add]
    exact topSize_le _ _
  · have hPushed : (pushed neighbours visited x).length ≤ bound :=
      Nat.le_trans (List.length_filter_le _ _) hBound
    have hy : y ∈ pushed neighbours visited x := by simp [hSome]
    have hFree : y ∉ mark visited x := by
      rw [mem_mark]
      exact not_or.mpr (mem_pushed.mp hy).2
    rw [hSome] at hPushed ⊢
    simpa [topSize, hFree] using hPushed

/-- Every step makes the size smaller. Where the element was marked already this is
due to the top of the stack, otherwise to the mark. -/
theorem size_take_lt {x : α} {stack visited : List α} (hx : x ∈ range)
    (hBound : (neighbours x).length ≤ bound) :
    size range bound (take neighbours x stack visited) <
      size range bound ⟨x :: stack, visited⟩ := by
  have hTop : (pushed neighbours visited x).length +
      topSize bound (mark visited x) (take neighbours x stack visited).stack ≤ bound :=
    pushed_add_topSize_le hBound
  have hLength : (take neighbours x stack visited).stack.length =
      (pushed neighbours visited x).length + stack.length := by simp [take]
  have hVisited : (take neighbours x stack visited).visited = mark visited x := rfl
  have hHere : topSize bound visited (x :: stack) = if x ∈ visited then bound else 0 := rfl
  simp only [size, hLength, hVisited, hHere, List.length_cons]
  by_cases hOld : x ∈ visited
  · have hMono : bound * unmarked range (mark visited x) ≤ bound * unmarked range visited :=
      Nat.mul_le_mul_left bound (unmarked_mark_le visited x)
    rw [if_pos hOld]
    omega
  · have hLess := Nat.mul_le_mul_left bound (unmarked_mark_lt hx hOld)
    rw [Nat.mul_succ] at hLess
    rw [if_neg hOld]
    omega

/-- The loop ends, and it marks exactly what can be reached. The range is any finite
list that the neighbours do not leave. -/
theorem loop_eq (hRange : ∀ y, y ∈ range → ∀ z ∈ neighbours y, z ∈ range)
    (hBound : ∀ y ∈ range, (neighbours y).length ≤ bound) {x : α} {fuel : Nat} {st : State α}
    (hInv : Invariant neighbours x st) (hStack : ∀ y ∈ st.stack, y ∈ range)
    (hFuel : size range bound st ≤ fuel) :
    ∃ visited, loop neighbours fuel st = some visited ∧ visited.Nodup ∧
      ∀ y, y ∈ visited ↔ Reaches neighbours x y := by
  induction fuel generalizing st with
  | zero =>
      obtain ⟨stack, visited⟩ := st
      cases stack with
      | nil => exact ⟨visited, by simp [loop], hInv.nodup, hInv.mem_iff⟩
      | cons y stack => simp [size] at hFuel
  | succ fuel ih =>
      obtain ⟨stack, visited⟩ := st
      cases stack with
      | nil => exact ⟨visited, by simp [loop], hInv.nodup, hInv.mem_iff⟩
      | cons y stack =>
          have hy : y ∈ range := hStack y List.mem_cons_self
          have hLess : size range bound (take neighbours y stack visited) <
              size range bound ⟨y :: stack, visited⟩ := size_take_lt hy (hBound y hy)
          rw [loop]
          apply ih hInv.take
          · intro z hz
            simp only [take, List.mem_append, List.mem_reverse, mem_pushed] at hz
            cases hz with
            | inl hNew => exact hRange y hy z hNew.1
            | inr hBelow => exact hStack z (List.mem_cons_of_mem y hBelow)
          · omega

/-- How much fuel is enough for a search from one element, in the size of the range
and the number of neighbours. -/
theorem size_start (x : α) : size range bound (start x) = 1 + bound * range.length := by
  simp [size, start, unmarked, topSize]

end Termination

end Worklist
