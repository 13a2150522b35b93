import SerialisationSolver.Interaction.Contract

/-! Programs inside other programs. Each event of the inner program becomes some
events of the outer one, and its faults end the outer program after some events. -/
namespace Interaction.Program

variable {Request Answer Event Event' Fault Fault' Result : Type}

/-- Put several events on the record, one after the other, before the program goes
on. -/
def emits (events : List Event) (program : Program Request Answer Event Fault Result) :
    Program Request Answer Event Fault Result := events.foldr .emit program

/-- The program inside of another one, which sees its events and faults in its own
words. Requests and answers are handed through. -/
def translate (shown : Event → List Event') (ended : Fault → List Event' × Fault') :
    Program Request Answer Event Fault Result → Program Request Answer Event' Fault' Result
  | .done result => .done result
  | .fail fault => emits (ended fault).1 (.fail (ended fault).2)
  | .emit event next => emits (shown event) (translate shown ended next)
  | .ask request next => .ask request fun answer => translate shown ended (next answer)

/-- The record of the outer program as far as the inner one runs. Each event is
replaced by the events it stands for, and the answers stay where they are. -/
def translateTrace (shown : Event → List Event') (trace : List (Entry Request Answer Event)) :
    List (Entry Request Answer Event') :=
  trace.flatMap fun entry => match entry with
    | .asked request answer => [.asked request answer]
    | .event event => (shown event).map .event

/-- The events that the outer program shows for a fault of the inner one, after all
others. -/
def parting (ended : Fault → List Event' × Fault') : Except Fault Result →
    List (Entry Request Answer Event')
  | .ok _ => []
  | .error fault => (ended fault).1.map .event

/-- How the inner program ends, in the words of the outer one. Results are the same
for both. -/
def translateOut (ended : Fault → List Event' × Fault') : Except Fault Result → Except Fault' Result
  | .ok result => .ok result
  | .error fault => .error (ended fault).2

section

variable {shown : Event → List Event'} {ended : Fault → List Event' × Fault'}
  {admits : Request → Answer → Prop}

theorem ensures_emits (events : List Event) {program : Program Request Answer Event Fault Result}
    {post : Except Fault Result → List (Entry Request Answer Event) → Prop}
    (h : Ensures admits program fun out trace => post out (events.map .event ++ trace)) :
    Ensures admits (emits events program) post := by
  induction events generalizing post with
  | nil => exact h
  | cons event events ih => exact ih h

/-- What the inner program ensures of its own record, the outer one ensures of the
translated record. -/
theorem Ensures.translate {program : Program Request Answer Event Fault Result}
    {post : Except Fault' Result → List (Entry Request Answer Event') → Prop}
    (h : Ensures admits program fun out trace =>
      post (translateOut ended out) (translateTrace shown trace ++ parting ended out)) :
    Ensures admits (program.translate shown ended) post := by
  induction program generalizing post with
  | done result => exact h
  | fail fault =>
      apply ensures_emits
      simpa [Ensures, translateTrace, parting, translateOut] using h
  | emit event next ih =>
      apply ensures_emits
      apply ih
      have hNext : Ensures admits next fun out trace =>
        post (translateOut ended out)
          (translateTrace shown (.event event :: trace) ++ parting ended out) := h
      apply hNext.mono
      intro out trace hPost
      simpa [translateTrace] using hPost
  | ask request next ih =>
      intro answer hAnswer
      apply ih
      apply Ensures.mono (h answer hAnswer)
      intro out trace hPost
      simpa [translateTrace] using hPost

variable {State : Type} {oracle : Oracle Request Answer State}

theorem run_emits (events : List Event) (program : Program Request Answer Event Fault Result)
    (state : State) : (emits events program).run oracle state =
      { program.run oracle state with
        trace := events.map .event ++ (program.run oracle state).trace } := by
  induction events with
  | nil => rfl
  | cons event events ih =>
      change (Program.emit event (emits events program)).run oracle state = _
      rw [run, ih]
      rfl

/-- The outer program asks what the inner one asks, and shows its record. Both leave
the environment in the same state. -/
theorem run_translate (program : Program Request Answer Event Fault Result) (state : State) :
    (program.translate shown ended).run oracle state =
      ⟨translateOut ended (program.run oracle state).result, (program.run oracle state).state,
        translateTrace shown (program.run oracle state).trace ++
          parting ended (program.run oracle state).result⟩ := by
  induction program generalizing state with
  | done result => rfl
  | fail fault =>
      rw [translate, run_emits]
      simp [run, translateTrace, translateOut, parting]
  | emit event next ih =>
      rw [translate, run_emits, ih]
      simp [run, translateTrace]
  | ask request next ih =>
      rcases hAnswer : oracle state request with ⟨answer, between⟩
      simp [translate, run, hAnswer, ih, translateTrace]

end

end Interaction.Program
