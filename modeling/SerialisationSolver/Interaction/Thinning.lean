import SerialisationSolver.Interaction.Contract

/-! Leaving out events. A program that emits less but is otherwise the same asks
the same requests, ends alike, and shows part of what the other one shows. -/
namespace Interaction.Program

variable {Request Answer Event Fault First Second First' Second' Result Item : Type}

/-- The first program leaves out some events of the second one, and ends with the
same fault or with a result that is related. Requests are never left out, so that
both see the same answers. -/
inductive Thins (spare : Event → Prop) (related : First → Second → Prop) :
    Program Request Answer Event Fault First → Program Request Answer Event Fault Second → Prop
  | done {first : First} {second : Second} (hRelated : related first second) :
      Thins spare related (.done first) (.done second)
  | fail (fault : Fault) : Thins spare related (.fail fault) (.fail fault)
  | emit (event : Event) {next : Program Request Answer Event Fault First}
      {next' : Program Request Answer Event Fault Second} (hNext : Thins spare related next next') :
      Thins spare related (.emit event next) (.emit event next')
  | leave {event : Event}
    (hSpare : spare event) {program : Program Request Answer Event Fault First}
      {next' : Program Request Answer Event Fault Second}
        (hNext : Thins spare related program next') :
      Thins spare related program (.emit event next')
  | ask (request : Request) {next : Answer → Program Request Answer Event Fault First}
      {next' : Answer → Program Request Answer Event Fault Second}
      (hNext : ∀ answer, Thins spare related (next answer) (next' answer)) :
      Thins spare related (.ask request next) (.ask request next')

variable {spare : Event → Prop} {related : First → Second → Prop}
  {program : Program Request Answer Event Fault First}
  {program' : Program Request Answer Event Fault Second}

theorem Thins.refl (program : Program Request Answer Event Fault First) :
    Thins spare Eq program program := by
  induction program with
  | done result => exact .done rfl
  | fail fault => exact .fail fault
  | emit event next ih => exact .emit event ih
  | ask request next ih => exact .ask request ih

/-- Sequences are thinned half by half, where the second halves start from related
results. -/
theorem Thins.bind {related' : First' → Second' → Prop}
    {rest : First → Program Request Answer Event Fault First'}
    {rest' : Second → Program Request Answer Event Fault Second'}
    (h : Thins spare related program program')
    (hRest : ∀ first second, related first second →
      Thins spare related' (rest first) (rest' second)) :
    Thins spare related' (program >>= rest) (program' >>= rest') := by
  induction h with
  | done hRelated => exact hRest _ _ hRelated
  | fail fault => exact .fail fault
  | emit event _ ih => exact .emit event ih
  | leave hSpare _ ih => exact .leave hSpare ih
  | ask request _ ih => exact .ask request ih

theorem Thins.log {event : Event} {rest : Unit → Program Request Answer Event Fault First}
    {rest' : Unit → Program Request Answer Event Fault Second}
    (h : Thins spare related (rest ()) (rest' ())) :
    Thins spare related (Program.log event >>= rest) (Program.log event >>= rest') := .emit event h

/-- Loops that are never left early, with one turn after the other. The relation of
the accumulators is the invariant of both loops. -/
theorem Thins.forIn {items : List Item} {init : First} {init' : Second}
    {body : Item → First → Program Request Answer Event Fault (ForInStep First)}
    {body' : Item → Second → Program Request Answer Event Fault (ForInStep Second)}
    (hInit : related init init')
    (hBody : ∀ item acc acc', related acc acc' →
      Thins spare (fun turn turn' => ∃ next next', turn = .yield next ∧ turn' = .yield next' ∧
        related next next') (body item acc) (body' item acc')) :
    Thins spare related (forIn items init body) (forIn items init' body') := by
  induction items generalizing init init' with
  | nil => exact .done hInit
  | cons item items ih =>
      rw [List.forIn_cons, List.forIn_cons]
      apply (hBody item init init' hInit).bind
      rintro _ _ ⟨next, next', rfl, rfl, hNext⟩
      exact ih hNext

/-- In every environment the runs end alike, and whoever does not look at spare
events sees the same. What the first run shows is also part of what the second one
shows, in the same order. -/
theorem Thins.run {State : Type} {program program' : Program Request Answer Event Fault Result}
    (h : Thins spare Eq program program') (oracle : Oracle Request Answer State) (state : State) :
    (program.run oracle state).result = (program'.run oracle state).result ∧
    (program.run oracle state).state = (program'.run oracle state).state ∧
    (program.run oracle state).trace.Sublist (program'.run oracle state).trace ∧
    ∀ look : Entry Request Answer Event → Bool,
      (∀ event, spare event → look (.event event) = false) →
      (program.run oracle state).trace.filter look =
        (program'.run oracle state).trace.filter look := by
  induction h generalizing state with
  | done hRelated => exact ⟨congrArg Except.ok hRelated, rfl, List.Sublist.refl _, fun _ _ => rfl⟩
  | fail fault => exact ⟨rfl, rfl, List.Sublist.refl _, fun _ _ => rfl⟩
  | emit event _ ih =>
      obtain ⟨hResult, hState, hPart, hSeen⟩ := ih state
      refine ⟨hResult, hState, hPart.cons_cons _, fun look hLook => ?_⟩
      simp only [Program.run, List.filter_cons, hSeen look hLook]
  | leave hSpare _ ih =>
      obtain ⟨hResult, hState, hPart, hSeen⟩ := ih state
      refine ⟨hResult, hState, hPart.cons _, fun look hLook => ?_⟩
      simp [Program.run, hLook _ hSpare, hSeen look hLook]
  | ask request _ ih =>
      rcases hAnswer : oracle state request with ⟨answer, between⟩
      obtain ⟨hResult, hState, hPart, hSeen⟩ := ih answer between
      simp only [Program.run, hAnswer]
      refine ⟨hResult, hState, hPart.cons_cons _, fun look hLook => ?_⟩
      simp only [List.filter_cons, hSeen look hLook]

end Interaction.Program
