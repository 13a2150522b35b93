import Mathlib.Logic.Basic

/-! Programs that question an environment while they run. A program is a tree
of requests; the environment answers each request and may answer equal requests
differently. Every execution records what was asked and what was emitted. -/
namespace Interaction

/-- A computation that stops with a result or a fault, after emitting events and
asking requests. The continuation of a request sees only its answer, never the state
of the environment. -/
inductive Program (Request Answer Event Fault : Type) (Result : Type) where
  | done (result : Result)
  | fail (fault : Fault)
  | emit (event : Event) (next : Program Request Answer Event Fault Result)
  | ask (request : Request) (next : Answer → Program Request Answer Event Fault Result)

/-- One line of the record of an execution: a request with the answer it got, or an
event. -/
inductive Entry (Request Answer Event : Type) where
  | asked (request : Request) (answer : Answer)
  | event (event : Event)

/-- An environment that answers requests. It may use everything it has seen so far,
kept in its state, and need not answer equal requests alike. -/
abbrev Oracle (Request Answer State : Type) := State → Request → Answer × State

/-- How an execution ended, in which state it left the environment, and what is on
the record. -/
structure Outcome (Request Answer Event Fault State Result : Type) where
  result : Except Fault Result
  state : State
  trace : List (Entry Request Answer Event)

namespace Program

variable {Request Answer Event Fault State Result First Second : Type}

/-- One program after the other. The first one hands its result on, and a fault of
it is the fault of both. -/
def bind : Program Request Answer Event Fault First →
    (First → Program Request Answer Event Fault Second) → Program Request Answer Event Fault Second
  | .done result, rest => rest result
  | .fail fault, _ => .fail fault
  | .emit event next, rest => .emit event (next.bind rest)
  | .ask request next, rest => .ask request (fun answer => (next answer).bind rest)

instance : Monad (Program Request Answer Event Fault) where
  pure := .done
  bind := bind

@[simp] theorem done_bind (result : First)
    (rest : First → Program Request Answer Event Fault Second) :
    (Program.done result >>= rest) = rest result := rfl

@[simp] theorem fail_bind (fault : Fault)
    (rest : First → Program Request Answer Event Fault Second) :
    ((.fail fault : Program Request Answer Event Fault First) >>= rest) = .fail fault := rfl

@[simp] theorem emit_bind (event : Event) (next : Program Request Answer Event Fault First)
    (rest : First → Program Request Answer Event Fault Second) :
    (Program.emit event next >>= rest) = .emit event (next >>= rest) := rfl

@[simp] theorem ask_bind (request : Request)
    (next : Answer → Program Request Answer Event Fault First)
    (rest : First → Program Request Answer Event Fault Second) :
    (Program.ask request next >>= rest) = .ask request (fun answer => next answer >>= rest) := rfl

/-- Returning a result asks and emits nothing. Stated so that goals can be brought
to the constructors, on which `run` and `Ensures` compute. -/
theorem pure_eq_done (result : Result) :
    (pure result : Program Request Answer Event Fault Result) = .done result := rfl

instance : LawfulMonad (Program Request Answer Event Fault) := by
  refine LawfulMonad.mk' _ ?_ (fun _ _ => rfl) ?_
  · intro Result program
    change bind program (fun result => .done result) = program
    induction program with
    | done result => rfl
    | fail fault => rfl
    | emit event next ih => exact congrArg (Program.emit event) ih
    | ask request next ih => exact congrArg (Program.ask request) (funext ih)
  · intro First Second Third program rest last
    change bind (bind program rest) last = bind program (fun result => bind (rest result) last)
    induction program with
    | done result => rfl
    | fail fault => rfl
    | emit event next ih => exact congrArg (Program.emit event) ih
    | ask request next ih => exact congrArg (Program.ask request) (funext ih)

/-- Put one event on the record and return nothing. In the model of a source this
marks what an execution is observed by. -/
def log (event : Event) : Program Request Answer Event Fault Unit := .emit event (.done ())

/-- Ask one request and return its answer. All knowledge of a program about its
environment comes from here. -/
def request (request : Request) : Program Request Answer Event Fault Answer := .ask request .done

/-- Execute against an environment. The trace lists every answer and every event in
order, and the state is the one that the last answer left. -/
def run (oracle : Oracle Request Answer State) :
    Program Request Answer Event Fault Result → State →
      Outcome Request Answer Event Fault State Result
  | .done result, state => ⟨.ok result, state, []⟩
  | .fail fault, state => ⟨.error fault, state, []⟩
  | .emit event next, state =>
      let out := run oracle next state
      { out with trace := .event event :: out.trace }
  | .ask request next, state =>
      let (answer, state) := oracle state request
      let out := run oracle (next answer) state
      { out with trace := .asked request answer :: out.trace }

/-- A sequence runs its second half where the first one ended, with the two traces
after each other. If the first half ends with a fault, its outcome is that of the
sequence. -/
theorem run_bind (oracle : Oracle Request Answer State)
    (program : Program Request Answer Event Fault First)
    (rest : First → Program Request Answer Event Fault Second) (state : State) :
    (program >>= rest).run oracle state =
      match program.run oracle state with
      | ⟨.ok result, state, trace⟩ =>
          { (rest result).run oracle state with trace := trace ++
            ((rest result).run oracle state).trace }
      | ⟨.error fault, state, trace⟩ => ⟨.error fault, state, trace⟩ := by
  induction program generalizing state with
  | done result => rfl
  | fail fault => rfl
  | emit event next ih =>
      rw [emit_bind, run, ih, run]
      rcases next.run oracle state with ⟨fault | result, after, trace⟩ <;> rfl
  | ask request next ih =>
      rcases hAnswer : oracle state request with ⟨answer, between⟩
      simp only [ask_bind, run, hAnswer, ih]
      rcases (next answer).run oracle between with ⟨fault | result, after, trace⟩ <;> rfl

end Program

end Interaction
