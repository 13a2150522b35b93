import SerialisationSolver.Interaction.Contract

/-! What a program can return, whatever the environment answers. Sequences that go
on alike after every possible result are the same program. -/
namespace Interaction.Program

variable {Request Answer Event Fault Result First Second Item : Type}

/-- Every result has the property, whatever the environment answers. Faults are not
excluded. -/
structure Returns (P : Result → Prop) (program : Program Request Answer Event Fault Result) :
    Prop where
  ensures : Ensures (fun _ _ => True) program (fun out _ => ∀ result, out = .ok result → P result)

variable {P : First → Prop} {program : Program Request Answer Event Fault First}

theorem returns_pure {result : First} (h : P result) :
    Returns P (pure result : Program Request Answer Event Fault First) := by
  constructor
  rintro _ ⟨⟩
  exact h

theorem returns_fail (fault : Fault) :
    Returns P (.fail fault : Program Request Answer Event Fault First) := by
  constructor
  rintro _ ⟨⟩

/-- The trivial property, for programs whose result is of no interest in a sequence. -/
theorem returns_true (program : Program Request Answer Event Fault First) :
    Returns (fun _ => True) program := ⟨ensures_of_forall fun _ _ _ _ => trivial⟩

/-- The results of a sequence are those of its second half, which may rely on the
property of what the first half returns. -/
theorem Returns.bind {Q : Second → Prop} {rest : First → Program Request Answer Event Fault Second}
    (h : Returns P program) (hRest : ∀ result, P result → Returns Q (rest result)) :
    Returns Q (program >>= rest) := by
  refine ⟨Ensures.seq _ h.ensures ?_ fun result _ hResult =>
    (hRest result (hResult result rfl)).ensures⟩
  rintro fault _ - _ ⟨⟩

/-- What each pass of a loop preserves of the accumulator, the loop returns, also
when it is left early. -/
theorem Returns.forIn {items : List Item} {init : First}
    {body : Item → First → Program Request Answer Event Fault (ForInStep First)} (hInit : P init)
    (hBody : ∀ item acc, P acc → Returns (fun turn => P turn.value) (body item acc)) :
    Returns P (forIn items init body) := by
  induction items generalizing init with
  | nil => exact returns_pure hInit
  | cons item items ih =>
      rw [List.forIn_cons]
      apply (hBody item init hInit).bind
      intro turn hTurn
      cases turn with
      | done acc => exact returns_pure hTurn
      | yield acc => exact ih hTurn

theorem Returns.mapM_length {items : List Item}
    (f : Item → Program Request Answer Event Fault First) :
    Returns (fun results => results.length = items.length) (items.mapM f) := by
  induction items with
  | nil => exact returns_pure rfl
  | cons item items ih =>
      rw [List.mapM_cons]
      apply (returns_true (f item)).bind
      intro result _
      exact ih.bind fun results hResults => returns_pure (congrArg (· + 1) hResults)

/-- The rest of a sequence matters on possible results only. Two rests that agree
there give the same program. -/
theorem Returns.bind_congr {rest rest' : First → Program Request Answer Event Fault Second}
    (h : Returns P program) (hRest : ∀ result, P result → rest result = rest' result) :
    program >>= rest = program >>= rest' := by
  obtain ⟨h⟩ := h
  induction program with
  | done result => exact hRest result (h result rfl)
  | fail fault => rfl
  | emit event next ih => exact congrArg (Program.emit event) (ih h)
  | ask request next ih =>
      exact congrArg (Program.ask request) (funext fun answer => ih answer (h answer trivial))

/-- A loop that is left at the first item with a property decides whether there is
one: this is the source's search loop with its `break`. -/
theorem forIn_eq_any {items : List Item} {p : Item → Bool}
    {body : Item → Bool → Program Request Answer Event Fault (ForInStep Bool)}
    (h : ∀ item ∈ items, body item false =
      if p item then pure (.done true) else pure (.yield false)) :
    ForIn.forIn items false body = pure (items.any p) := by
  induction items with
  | nil => rfl
  | cons item items ih =>
      rw [List.forall_mem_cons] at h
      rw [List.forIn_cons, h.1, List.any_cons]
      by_cases hItem : p item = true
      · rw [if_pos hItem, hItem]
        rfl
      · rw [if_neg hItem, Bool.eq_false_iff.mpr hItem, Bool.false_or, pure_bind]
        exact ih h.2

end Interaction.Program
