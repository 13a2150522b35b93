import Mathlib.Algebra.GroupWithZero.Nat
import Mathlib.Algebra.BigOperators.Group.List.Basic

/-! Runs of a labelled machine. A program refines a machine when each record of
an execution is the list of labels of some run, so that invariants of the
machine speak about everything the program asks and emits. -/
namespace Interaction

variable {State Label : Type*}

/-- The labels of a run from one state to another. The machine need not be
deterministic: the same labels may lead to different states. -/
inductive Runs (step : State → Label → State → Prop) : State → List Label → State → Prop
  | nil (s : State) : Runs step s [] s
  | cons {s t u : State} {label : Label} {labels : List Label} :
      step s label t → Runs step t labels u → Runs step s (label :: labels) u

namespace Runs

variable {step : State → Label → State → Prop} {s t u : State} {labels more : List Label}

theorem single {label : Label} (h : step s label t) : Runs step s [label] t := .cons h (.nil t)

theorem append (h : Runs step s labels t) (hMore : Runs step t more u) :
    Runs step s (labels ++ more) u := by
  induction h with
  | nil => exact hMore
  | cons hStep _ ih => exact .cons hStep (ih hMore)

/-- The state in which a run was after its first labels. It exists, and need not be
the only one that these labels lead to. -/
theorem split (h : Runs step s (labels ++ more) u) :
    ∃ t, Runs step s labels t ∧ Runs step t more u := by
  induction labels generalizing s with
  | nil => exact ⟨s, .nil s, h⟩
  | cons label labels ih =>
      cases h with
      | cons hFirst hRest =>
          obtain ⟨t, hBefore, hAfter⟩ := ih hRest
          exact ⟨t, .cons hFirst hBefore, hAfter⟩

/-- The step that a label in the middle of a run comes from, with the runs before
and after it. -/
theorem split_cons {label : Label} (h : Runs step s (labels ++ label :: more) u) :
    ∃ t t', Runs step s labels t ∧ step t label t' ∧ Runs step t' more u := by
  obtain ⟨t, hBefore, hRest⟩ := h.split
  cases hRest with
  | cons hHere hAfter => exact ⟨t, _, hBefore, hHere, hAfter⟩

variable {inv : State → Prop} (hStep : ∀ s label t, inv s → step s label t → inv t)
include hStep

/-- What every step preserves, every run preserves. All invariants of runs are
obtained from this by naming what a step does. -/
theorem preserves (h : Runs step s labels t) (hStart : inv s) : inv t := by
  induction h with
  | nil => exact hStart
  | cons hFirst _ ih => exact ih (hStep _ _ _ hStart hFirst)

/-- Every label of a run is taken from a state that satisfies the invariant, so that
facts about single steps hold along the run. -/
theorem labels_from (h : Runs step s labels t) (hStart : inv s) :
    ∀ label ∈ labels, ∃ before after, inv before ∧ step before label after := by
  induction h with
  | nil => simp
  | cons hFirst _ ih =>
      intro label hLabel
      rcases List.mem_cons.mp hLabel with rfl | hLater
      · exact ⟨_, _, hStart, hFirst⟩
      · exact ih (hStep _ _ _ hStart hFirst) label hLater

/-- What the labels cost in total is paid for by what the state loses. A bound on
the size of the first state is then a bound on the run. -/
theorem cost_le (cost : Label → Nat) (size : State → Nat)
    (hPay : ∀ s label t, inv s → step s label t → size t + cost label ≤ size s)
    (h : Runs step s labels t) (hStart : inv s) : size t + (labels.map cost).sum ≤ size s := by
  induction h with
  | nil => simp
  | cons hFirst _ ih =>
      have hHere := hPay _ _ _ hStart hFirst
      have hLater := ih (hStep _ _ _ hStart hFirst)
      rw [List.map_cons, List.sum_cons]
      omega

/-- What the labels cost in total is put into the state on the way, where it can be
read off at the end. -/
theorem cost_le_gain (cost : Label → Nat) (size : State → Nat)
    (hGain : ∀ s label t, inv s → step s label t → size s + cost label ≤ size t)
    (h : Runs step s labels t) (hStart : inv s) : size s + (labels.map cost).sum ≤ size t := by
  induction h with
  | nil => simp
  | cons hFirst _ ih =>
      have hHere := hGain _ _ _ hStart hFirst
      have hLater := ih (hStep _ _ _ hStart hFirst)
      rw [List.map_cons, List.sum_cons]
      omega

end Runs

end Interaction
