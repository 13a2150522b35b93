import SerialisationSolver.Interaction.Contract

/-! Environments that give up. A program that stops as soon as its environment gives
up has shown until then what it shows against an environment that never does. -/
namespace Interaction.Program

variable {Request Answer Event Fault State Result First Second Item : Type}

/-- Wherever the environment gives up, the program stops with the given fault,
before it asks or emits anything else. -/
def StopsOn (quits : Answer → Prop) (fault : Fault) :
    Program Request Answer Event Fault Result → Prop
  | .done _ => True
  | .fail _ => True
  | .emit _ next => StopsOn quits fault next
  | .ask _ next => ∀ answer, (quits answer → next answer = .fail fault) ∧
      StopsOn quits fault (next answer)

section

variable {quits : Answer → Prop} {fault : Fault}

theorem Immediate.stopsOn {program : Program Request Answer Event Fault Result}
    (h : Immediate program) : StopsOn quits fault program := by
  rcases h with ⟨result, rfl⟩ | ⟨other, rfl⟩
  · trivial
  · trivial

/-- A sequence stops where either half stops: a fault of the first half is a fault
of the whole. -/
theorem StopsOn.bind {program : Program Request Answer Event Fault First}
    {rest : First → Program Request Answer Event Fault Second} (h : StopsOn quits fault program)
    (hRest : ∀ result, StopsOn quits fault (rest result)) :
    StopsOn quits fault (program >>= rest) := by
  induction program with
  | done result => exact hRest result
  | fail other => trivial
  | emit event next ih => exact ih h
  | ask request next ih =>
      intro answer
      obtain ⟨hQuits, hNext⟩ := h answer
      refine ⟨fun hAnswer => ?_, ih answer hNext⟩
      exact congrArg (· >>= rest) (hQuits hAnswer)

theorem StopsOn.log {event : Event} {rest : Unit → Program Request Answer Event Fault Result}
    (h : StopsOn quits fault (rest ())) : StopsOn quits fault (Program.log event >>= rest) := h

/-- A loop stops in the pass in which the environment gives up, as a fault leaves
the loop. -/
theorem StopsOn.forIn {Acc : Type} {items : List Item} {init : Acc}
    {body : Item → Acc → Program Request Answer Event Fault (ForInStep Acc)}
    (h : ∀ item acc, StopsOn quits fault (body item acc)) :
    StopsOn quits fault (forIn items init body) := by
  induction items generalizing init with
  | nil => trivial
  | cons item items ih =>
      rw [List.forIn_cons]
      apply (h item init).bind
      intro next
      cases next with
      | done acc => trivial
      | yield acc => exact ih

open Classical in
/-- An environment that asks for a second opinion instead of giving up. Its state
goes on as if it had answered itself, so that the two can be compared. -/
noncomputable def repair (quits : Answer → Prop) (second : Request → Answer)
    (oracle : Oracle Request Answer State) : Oracle Request Answer State :=
  fun state request =>
    if quits (oracle state request).1 then (second request, (oracle state request).2)
    else oracle state request

/-- If the second opinion is always admitted, and so is every answer that does not
give up, then the repaired environment is admitted. -/
theorem admitted_repair {admits : Request → Answer → Prop} {second : Request → Answer}
    {oracle : Oracle Request Answer State} (hSecond : ∀ request, admits request (second request))
    (hOracle : ∀ state request, ¬ quits (oracle state request).1 →
      admits request (oracle state request).1) : Admitted admits (repair quits second oracle) := by
  intro state request
  by_cases hQuits : quits (oracle state request).1
  · rw [repair, if_pos hQuits]
    exact hSecond request
  · rw [repair, if_neg hQuits]
    exact hOracle state request hQuits

/-- Either nothing differs, or the program stops where its environment gives up, and
everything before is part of what it shows when the environment goes on. -/
theorem StopsOn.run {program : Program Request Answer Event Fault Result}
    (h : StopsOn quits fault program) (second : Request → Answer)
    (oracle : Oracle Request Answer State) (state : State) :
    program.run oracle state = program.run (repair quits second oracle) state ∨
    (program.run oracle state).result = .error fault ∧ ∃ before request answer,
      (program.run oracle state).trace = before ++ [.asked request answer] ∧
        before <+: (program.run (repair quits second oracle) state).trace := by
  induction program generalizing state with
  | done result => exact Or.inl rfl
  | fail other => exact Or.inl rfl
  | emit event next ih =>
      rcases ih h state with hSame | ⟨hResult, before, request, answer, hTrace, hPrefix⟩
      · left
        simp only [Program.run, hSame]
      · refine Or.inr ⟨hResult, .event event :: before, request, answer, ?_, ?_⟩
        · simp only [Program.run, hTrace, List.cons_append]
        · exact List.prefix_cons_inj _ |>.mpr hPrefix
  | ask request next ih =>
      obtain ⟨hQuits, hNext⟩ := h (oracle state request).1
      by_cases hAnswer : quits (oracle state request).1
      · refine Or.inr ⟨?_, [], request, (oracle state request).1, ?_, List.nil_prefix⟩
        · simp only [Program.run, hQuits hAnswer]
        · simp only [Program.run, hQuits hAnswer, List.nil_append]
      · have hSame : repair quits second oracle state request = oracle state request :=
          if_neg hAnswer
        rcases ih _ hNext (oracle state request).2 with
          hRest | ⟨hResult, before, other, answer, hTrace, hPrefix⟩
        · left
          simp only [Program.run, hSame, hRest]
        · refine Or.inr ⟨hResult, .asked request (oracle state request).1 :: before, other,
            answer, ?_, ?_⟩
          · simp only [Program.run, hTrace, List.cons_append]
          · simp only [Program.run, hSame]
            exact List.prefix_cons_inj _ |>.mpr hPrefix

end

end Interaction.Program
