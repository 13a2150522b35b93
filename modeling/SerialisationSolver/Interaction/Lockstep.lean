import SerialisationSolver.Interaction.Contract

/-! Two programs that run in lockstep. They stop, emit and ask at the same time,
and what they ask may differ as long as the environment cannot tell. -/
namespace Interaction.Program

variable {Request Answer Event Fault First Second First' Second' Result : Type}

/-- The programs emit the same events, ask requests that are alike, and end with the
same fault or with results that are related. After each request they go on in
lockstep for every answer. -/
inductive Lockstep (alike : Request → Request → Prop) (related : First → Second → Prop) :
    Program Request Answer Event Fault First → Program Request Answer Event Fault Second → Prop
  | done {first : First} {second : Second} (hRelated : related first second) :
      Lockstep alike related (.done first) (.done second)
  | fail (fault : Fault) : Lockstep alike related (.fail fault) (.fail fault)
  | emit (event : Event) {next : Program Request Answer Event Fault First}
      {next' : Program Request Answer Event Fault Second}
        (hNext : Lockstep alike related next next') :
      Lockstep alike related (.emit event next) (.emit event next')
  | ask {request request' : Request} (hAlike : alike request request')
      {next : Answer → Program Request Answer Event Fault First}
      {next' : Answer → Program Request Answer Event Fault Second}
      (hNext : ∀ answer, Lockstep alike related (next answer) (next' answer)) :
      Lockstep alike related (.ask request next) (.ask request' next')

variable {alike : Request → Request → Prop} {related : First → Second → Prop}
  {program : Program Request Answer Event Fault First}
  {program' : Program Request Answer Event Fault Second}

/-- Sequences run in lockstep if their first halves do and the second halves do for
all related results. -/
theorem Lockstep.bind {related' : First' → Second' → Prop}
    {rest : First → Program Request Answer Event Fault First'}
    {rest' : Second → Program Request Answer Event Fault Second'}
    (h : Lockstep alike related program program')
    (hRest : ∀ first second, related first second →
      Lockstep alike related' (rest first) (rest' second)) :
    Lockstep alike related' (program >>= rest) (program' >>= rest') := by
  induction h with
  | done hRelated => exact hRest _ _ hRelated
  | fail fault => exact .fail fault
  | emit event _ ih => exact .emit event ih
  | ask hAlike _ ih => exact .ask hAlike ih

/-- Programs in lockstep that ask the same and go on alike are equal. With this a
change of representation inside of a program can be forgotten. -/
theorem Lockstep.bind_eq {rest : First → Program Request Answer Event Fault Result}
    {rest' : Second → Program Request Answer Event Fault Result}
    (h : Lockstep Eq related program program')
    (hRest : ∀ first second, related first second → rest first = rest' second) :
    program >>= rest = program' >>= rest' := by
  induction h with
  | done hRelated => exact hRest _ _ hRelated
  | fail fault => rfl
  | emit event _ ih => exact congrArg (Program.emit event) ih
  | ask hAlike _ ih =>
      rw [ask_bind, ask_bind, hAlike]
      exact congrArg (Program.ask _) (funext ih)

theorem Lockstep.log {event : Event} {rest : Unit → Program Request Answer Event Fault First}
    {rest' : Unit → Program Request Answer Event Fault Second}
    (h : Lockstep alike related (rest ()) (rest' ())) :
    Lockstep alike related (Program.log event >>= rest) (Program.log event >>= rest') :=
      .emit event h

/-- What a program ensures of its outcome carries over to a program in lockstep,
when requests that are alike admit the same answers. -/
theorem Lockstep.ensures {admits : Request → Answer → Prop} {post : Except Fault First → Prop}
    {program program' : Program Request Answer Event Fault First}
    (h : Lockstep alike Eq program program')
    (hAdmits : ∀ request request' answer, alike request request' → admits request' answer →
      admits request answer)
    (hEnsures : Ensures admits program (fun out _ => post out)) :
    Ensures admits program' (fun out _ => post out) := by
  induction h with
  | done hRelated => exact hRelated ▸ hEnsures
  | fail fault => exact hEnsures
  | emit event _ ih => exact ih hEnsures
  | ask hAlike _ ih =>
      intro answer hAnswer
      exact ih answer (hEnsures answer (hAdmits _ _ answer hAlike hAnswer))

end Interaction.Program
