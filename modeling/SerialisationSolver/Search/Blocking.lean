import Mathlib.Order.CompletePartialOrder
import Mathlib.Order.Minimal
import Mathlib.Data.Set.Card

/-! Enumeration of the minimal elements of a property by blocking. Each element
found closes everything above it; an element that cannot be lowered any further
is reported. The argument is about any partial order, and about any choice of
the elements found. -/
namespace Blocking

variable {α : Type*} [PartialOrder α] (P : α → Prop)

/-- The elements found so far close everything above them. `current` is the last one
of them, as long as it has not been reported yet. -/
structure State (α : Type*) where
  blocked : List α
  reported : List α
  current : Option α

/-- Nothing is closed and nothing reported, and no element is being lowered. -/
def start : State α := ⟨[], [], none⟩

/-- An element was found. It closes what lies above it, itself included, and becomes
the one that is lowered. -/
def State.found (st : State α) (x : α) : State α :=
  { st with blocked := st.blocked ++ [x], current := some x }

/-- The current element cannot be lowered any more and is reported. -/
def State.report (st : State α) (x : α) : State α :=
  { st with reported := st.reported ++ [x], current := none }

/-- The elements that can still be found: they have the property, and nothing found
so far lies below them. -/
def Open (st : State α) (x : α) : Prop := P x ∧ ∀ b ∈ st.blocked, ¬ b ≤ x

/-- `owed` carries the argument: a blocked element lies above a reported one, or
above the element that is being lowered at the moment. -/
structure Invariant (st : State α) : Prop where
  sound : ∀ b ∈ st.blocked, P b
  owed : ∀ b ∈ st.blocked, (∃ r ∈ st.reported, r ≤ b) ∨ ∃ x, st.current = some x ∧ x ≤ b
  reported_blocked : ∀ r ∈ st.reported, r ∈ st.blocked
  reported_minimal : ∀ r ∈ st.reported, Minimal P r
  nodup : st.reported.Nodup
  current_blocked : ∀ x, st.current = some x → x ∈ st.blocked
  current_fresh : ∀ x, st.current = some x → ∀ r ∈ st.reported, ¬ r ≤ x

variable {P} {st : State α}

theorem invariant_start : Invariant P (start : State α) := by
  constructor <;> simp [start]

/-- Finding an open element below the current one keeps the invariant. What was owed
to the current element is then owed to the new one. -/
theorem Invariant.found (h : Invariant P st) {x : α} (hOpen : Open P st x)
    (hBelow : ∀ y, st.current = some y → x ≤ y) : Invariant P (st.found x) where
  sound := by
    intro b hb
    cases List.mem_append.mp hb with
    | inl hb => exact h.sound b hb
    | inr hb =>
        rw [List.mem_singleton.mp hb]
        exact hOpen.1
  owed := by
    intro b hb
    cases List.mem_append.mp hb with
    | inl hb =>
        rcases h.owed b hb with hReported | ⟨y, hy, hyb⟩
        · exact Or.inl hReported
        · exact Or.inr ⟨x, rfl, (hBelow y hy).trans hyb⟩
    | inr hb => exact Or.inr ⟨x, rfl, (List.mem_singleton.mp hb).ge⟩
  reported_blocked := fun r hr => List.mem_append_left _ (h.reported_blocked r hr)
  reported_minimal := h.reported_minimal
  nodup := h.nodup
  current_blocked := by
    rintro y ⟨⟩
    exact List.mem_append_right _ (List.mem_singleton.mpr rfl)
  current_fresh := by
    rintro y ⟨⟩ r hr
    exact hOpen.2 r (h.reported_blocked r hr)

/-- When nothing open lies below the current element, it is minimal. A smaller
element would be blocked by an element found earlier, hence by a reported one. -/
theorem Invariant.current_minimal (h : Invariant P st) {x : α} (hCurrent : st.current = some x)
    (hStuck : ∀ y, y ≤ x → ¬ Open P st y) : Minimal P x := by
  refine ⟨h.sound x (h.current_blocked x hCurrent), ?_⟩
  intro y hy hyx
  have hBlocked : ∃ b ∈ st.blocked, b ≤ y := by
    by_contra hNone
    exact hStuck y hyx ⟨hy, fun b hb hby => hNone ⟨b, hb, hby⟩⟩
  obtain ⟨b, hb, hby⟩ := hBlocked
  rcases h.owed b hb with ⟨r, hr, hrb⟩ | ⟨x', hx', hxb⟩
  · exact absurd (hrb.trans (hby.trans hyx)) (h.current_fresh x hCurrent r hr)
  · obtain rfl : x = x' := Option.some.inj (hCurrent.symm.trans hx')
    exact hxb.trans hby

/-- Reporting such an element keeps the invariant. It was not reported before, since
nothing reported lies below it. -/
theorem Invariant.report (h : Invariant P st) {x : α} (hCurrent : st.current = some x)
    (hStuck : ∀ y, y ≤ x → ¬ Open P st y) : Invariant P (st.report x) where
  sound := h.sound
  owed := by
    intro b hb
    rcases h.owed b hb with ⟨r, hr, hrb⟩ | ⟨y, hy, hyb⟩
    · exact Or.inl ⟨r, List.mem_append_left _ hr, hrb⟩
    · obtain rfl : x = y := Option.some.inj (hCurrent.symm.trans hy)
      exact Or.inl ⟨x, List.mem_append_right _ (List.mem_singleton.mpr rfl), hyb⟩
  reported_blocked := by
    intro r hr
    cases List.mem_append.mp hr with
    | inl hr => exact h.reported_blocked r hr
    | inr hr =>
        rw [List.mem_singleton.mp hr]
        exact h.current_blocked x hCurrent
  reported_minimal := by
    intro r hr
    cases List.mem_append.mp hr with
    | inl hr => exact h.reported_minimal r hr
    | inr hr =>
        rw [List.mem_singleton.mp hr]
        exact h.current_minimal hCurrent hStuck
  nodup := by
    refine List.nodup_append.mpr ⟨h.nodup, List.nodup_singleton x, ?_⟩
    intro r hr y hy hEq
    rw [List.mem_singleton.mp hy] at hEq
    exact h.current_fresh x hCurrent r hr hEq.le
  current_blocked := by rintro y ⟨⟩
  current_fresh := by rintro y ⟨⟩

/-- An element found on the way down never blocks a minimal element, unless it is
that element. -/
theorem Invariant.blocked_eq (h : Invariant P st) {b x : α} (hb : b ∈ st.blocked)
    (hx : Minimal P x) (hbx : b ≤ x) : b = x :=
  le_antisymm hbx (hx.2 (h.sound b hb) hbx)

/-- When nothing is open any more, exactly the minimal elements are reported. A
minimal element that is not open is blocked, and then it is itself what blocks it. -/
theorem Invariant.exact (h : Invariant P st) (hCurrent : st.current = none)
    (hStop : ∀ x, ¬ Open P st x) (x : α) : x ∈ st.reported ↔ Minimal P x := by
  refine ⟨h.reported_minimal x, fun hx => ?_⟩
  have hBlocked : ∃ b ∈ st.blocked, b ≤ x := by
    by_contra hNone
    exact hStop x ⟨hx.1, fun b hb hbx => hNone ⟨b, hb, hbx⟩⟩
  obtain ⟨b, hb, hbx⟩ := hBlocked
  rcases h.owed b hb with ⟨r, hr, hrb⟩ | ⟨y, hy, _⟩
  · have hEq : r = x := h.blocked_eq (h.reported_blocked r hr) hx (hrb.trans hbx)
    exact hEq ▸ hr
  · simp [hCurrent] at hy

variable (P)

/-- How many elements can still be found. The set need not be finite in general, and
then this is zero and of no use. -/
noncomputable def room (st : State α) : Nat := {x | Open P st x}.ncard

variable {P}

/-- Finding an element leaves fewer of them open: it closes at least itself. -/
theorem room_found_lt (hFinite : {x | P x}.Finite) {x : α} (hOpen : Open P st x) :
    room P (st.found x) < room P st := by
  apply Set.ncard_lt_ncard _ (hFinite.subset fun _ hy => hy.1)
  refine ⟨fun y hy => ⟨hy.1, fun b hb => hy.2 b (List.mem_append_left _ hb)⟩, ?_⟩
  intro hAll
  have hClosed := (hAll hOpen).2 x (List.mem_append_right _ (List.mem_singleton.mpr rfl))
  exact hClosed le_rfl

/-- Reporting closes nothing, so that a report takes no part in the bound on the
steps. -/
theorem room_report (x : α) : room P (st.report x) = room P st := rfl

end Blocking
