import SerialisationSolver.Interaction.Program

/-! Contracts over every admitted behaviour of the environment. A contract
speaks about the outcome and about the whole record of the execution, so it
covers executions that stop with a fault as well. -/
namespace Interaction.Program

variable {Request Answer Event Fault State Result First Second Item : Type}

/-- `post` holds of the outcome and the trace of every execution in which the
answers are admitted. The environment chooses, so all admitted answers count, also
different ones to the same request. -/
def Ensures (admits : Request → Answer → Prop) :
    Program Request Answer Event Fault Result →
      (Except Fault Result → List (Entry Request Answer Event) → Prop) → Prop
  | .done result, post => post (.ok result) []
  | .fail fault, post => post (.error fault) []
  | .emit event next, post => Ensures admits next
    (fun out trace => post out (.event event :: trace))
  | .ask request next, post => ∀ answer, admits request answer →
      Ensures admits (next answer) (fun out trace => post out (.asked request answer :: trace))

variable {admits : Request → Answer → Prop}
  {post : Except Fault Result → List (Entry Request Answer Event) → Prop}

/-- The rule of consequence: a contract may be weakened. The induction follows the
program, as the trace in the postcondition grows with each of its steps. -/
theorem Ensures.mono {program : Program Request Answer Event Fault Result}
    {weaker : Except Fault Result → List (Entry Request Answer Event) → Prop}
    (h : Ensures admits program post) (hPost : ∀ out trace, post out trace → weaker out trace) :
    Ensures admits program weaker := by
  induction program generalizing post weaker with
  | done result => exact hPost _ _ h
  | fail fault => exact hPost _ _ h
  | emit event next ih => exact ih h (fun out trace => hPost out _)
  | ask request next ih =>
      intro answer hAnswer
      exact ih answer (h answer hAnswer) (fun out trace => hPost out _)

/-- What holds of every outcome and every trace is ensured by any program, without a
look at it. -/
theorem ensures_of_forall {program : Program Request Answer Event Fault Result}
    (h : ∀ out trace, post out trace) : Ensures admits program post := by
  induction program generalizing post with
  | done result => exact h _ _
  | fail fault => exact h _ _
  | emit event next ih => exact ih fun out trace => h out _
  | ask request next ih => exact fun answer _ => ih answer fun out trace => h out _

/-- A larger set of admitted behaviours gives the stronger contract, and the largest
one admits every answer. -/
theorem Ensures.of_any {program : Program Request Answer Event Fault Result}
    (h : Ensures (fun _ _ => True) program post) : Ensures admits program post := by
  induction program generalizing post with
  | done result => exact h
  | fail fault => exact h
  | emit event next ih => exact ih h
  | ask request next ih => exact fun answer _ => ih answer (h answer trivial)

/-- Two contracts of one program hold together, since both speak about the same
executions. -/
theorem Ensures.and {program : Program Request Answer Event Fault Result}
    {other : Except Fault Result → List (Entry Request Answer Event) → Prop}
    (h : Ensures admits program post) (hOther : Ensures admits program other) :
    Ensures admits program (fun out trace => post out trace ∧ other out trace) := by
  induction program generalizing post other with
  | done result => exact ⟨h, hOther⟩
  | fail fault => exact ⟨h, hOther⟩
  | emit event next ih => exact ih h hOther
  | ask request next ih =>
      exact fun answer hAnswer => ih answer (h answer hAnswer) (hOther answer hAnswer)

/-- What the second half of a sequence must ensure, after the first half ended with
this outcome and this trace. A fault ends the sequence at once, so that it has to
meet the postcondition itself. -/
def Continues (admits : Request → Answer → Prop)
    (rest : First → Program Request Answer Event Fault Second)
    (post : Except Fault Second → List (Entry Request Answer Event) → Prop) :
    Except Fault First → List (Entry Request Answer Event) → Prop
  | .ok result, trace => Ensures admits (rest result) (fun out later => post out (trace ++ later))
  | .error fault, trace => post (.error fault) trace

/-- The sequence rule in its weakest form: what the first half has to ensure is that
the second half can go on from there. -/
theorem Ensures.bind {program : Program Request Answer Event Fault First}
    {rest : First → Program Request Answer Event Fault Second}
    {post : Except Fault Second → List (Entry Request Answer Event) → Prop}
    (h : Ensures admits program (Continues admits rest post)) :
    Ensures admits (program >>= rest) post := by
  induction program generalizing post with
  | done result => exact h
  | fail fault => exact h
  | emit event next ih =>
      apply ih
      refine Ensures.mono h ?_
      intro out trace hPost
      cases out with
      | error fault => exact hPost
      | ok result => exact hPost
  | ask request next ih =>
      intro answer hAnswer
      apply ih
      apply Ensures.mono (h answer hAnswer)
      intro out trace hPost
      cases out with
      | error fault => exact hPost
      | ok result => exact hPost

/-- The usual form of the sequence rule: name what holds in between, and say that
faults of the first half already meet the postcondition. -/
theorem Ensures.seq {program : Program Request Answer Event Fault First}
    {rest : First → Program Request Answer Event Fault Second}
    {post : Except Fault Second → List (Entry Request Answer Event) → Prop}
    (middle : Except Fault First → List (Entry Request Answer Event) → Prop)
    (h : Ensures admits program middle)
    (hFault : ∀ fault trace, middle (.error fault) trace → post (.error fault) trace)
    (hRest : ∀ result trace, middle (.ok result) trace →
      Ensures admits (rest result) (fun out later => post out (trace ++ later))) :
    Ensures admits (program >>= rest) post := by
  apply Ensures.bind
  apply h.mono
  intro out trace hMiddle
  cases out with
  | error fault => exact hFault fault trace hMiddle
  | ok result => exact hRest result trace hMiddle

/-- An event is put on the record before the rest runs. This is the rule for the
first half of a sequence that emits and returns nothing. -/
theorem Ensures.log {event : Event} {rest : Unit → Program Request Answer Event Fault Result}
    (h : Ensures admits (rest ()) (fun out trace => post out (.event event :: trace))) :
    Ensures admits (Program.log event >>= rest) post := h

/-- What one pass of a loop must establish: the invariant for the next pass, or the
postcondition when the loop is left early, whether by a `break` or by a fault. -/
def LoopStep {Acc : Type} (next : Acc → List (Entry Request Answer Event) → Prop)
    (post : Except Fault Acc → List (Entry Request Answer Event) → Prop) :
    Except Fault (ForInStep Acc) → List (Entry Request Answer Event) → Prop
  | .ok (.yield acc), trace => next acc trace
  | .ok (.done acc), trace => post (.ok acc) trace
  | .error fault, trace => post (.error fault) trace

/-- A loop over a list preserves an invariant on the items already visited, the
accumulator and the trace so far. The induction is on the items that are left, with
the visited ones put aside. -/
theorem Ensures.loop {Acc : Type} {items : List Item} {init : Acc}
    {body : Item → Acc → Program Request Answer Event Fault (ForInStep Acc)}
    {post : Except Fault Acc → List (Entry Request Answer Event) → Prop}
    (inv : List Item → Acc → List (Entry Request Answer Event) → Prop)
    (hInit : inv [] init [])
    (hStep : ∀ visited item acc trace, item ∈ items → inv visited acc trace →
      Ensures admits (body item acc) (fun out later =>
        LoopStep (inv (visited ++ [item])) post out (trace ++ later)))
    (hDone : ∀ acc trace, inv items acc trace → post (.ok acc) trace) :
    Ensures admits (forIn items init body) post := by
  suffices hAll : ∀ rest visited acc trace, items = visited ++ rest → inv visited acc trace →
      Ensures admits (forIn rest acc body) (fun out later => post out (trace ++ later)) from
    hAll items [] init [] rfl hInit
  intro rest
  induction rest with
  | nil =>
      intro visited acc trace hItems hInv
      rw [List.forIn_nil, pure_eq_done]
      subst hItems
      simpa [Ensures] using hDone acc trace (by simpa using hInv)
  | cons item rest ih =>
      intro visited acc trace hItems hInv
      rw [List.forIn_cons]
      refine Ensures.seq _ (hStep visited item acc trace (by simp [hItems]) hInv) ?_ ?_
      · exact fun fault later h => h
      · intro next later h
        cases next with
        | done acc' => simpa [Ensures, pure_eq_done, LoopStep] using h
        | yield acc' =>
            apply (ih (visited ++ [item]) acc' (trace ++ later) (by simp [hItems]) h).mono
            intro out final hPost
            simpa only [List.append_assoc] using hPost

/-- A loop whose passes neither ask nor emit anything is a fold. The passes may rely
on what all of them preserve, such as a bound on an index. -/
theorem forIn_eq_foldl {Acc : Type} {items : List Item} {init : Acc}
    {body : Item → Acc → Program Request Answer Event Fault (ForInStep Acc)}
    (step : Acc → Item → Acc) (inv : Acc → Prop) (hInit : inv init)
    (h : ∀ item ∈ items, ∀ acc, inv acc →
      body item acc = pure (.yield (step acc item)) ∧ inv (step acc item)) :
    forIn items init body = pure (items.foldl step init) := by
  induction items generalizing init with
  | nil => rfl
  | cons item items ih =>
      obtain ⟨hBody, hNext⟩ := h item List.mem_cons_self init hInit
      rw [List.forIn_cons, hBody, pure_bind]
      exact ih hNext (fun item hItem => h item (List.mem_cons_of_mem _ hItem))

/-- A loop is determined by what its passes do with the items of the list; what they
would do with other items does not matter. -/
theorem forIn_congr {Acc : Type} {items : List Item} {init : Acc}
    {body body' : Item → Acc → Program Request Answer Event Fault (ForInStep Acc)}
    (h : ∀ item ∈ items, ∀ acc, body item acc = body' item acc) :
    ForIn.forIn items init body = ForIn.forIn items init body' := by
  rw [forIn_eq_forIn', forIn_eq_forIn']
  exact List.forIn'_congr rfl rfl h

/-- The program neither asks nor emits anything: it returns a result or ends with a
fault at once. -/
def Immediate (program : Program Request Answer Event Fault Result) : Prop :=
  (∃ result, program = pure result) ∨ ∃ fault, program = .fail fault

/-- A sequence of two halves that do nothing but return or fail is of this kind
again. -/
theorem Immediate.bind {program : Program Request Answer Event Fault First}
    {rest : First → Program Request Answer Event Fault Second} (h : Immediate program)
    (hRest : ∀ result, Immediate (rest result)) : Immediate (program >>= rest) := by
  rcases h with ⟨result, rfl⟩ | ⟨fault, rfl⟩
  · rw [pure_bind]
    exact hRest result
  · exact Or.inr ⟨fault, rfl⟩

theorem Immediate.ite {condition : Prop} [Decidable condition]
    {program other : Program Request Answer Event Fault Result} (h : Immediate program)
    (hOther : Immediate other) : Immediate (if condition then program else other) := by
  split
  · exact h
  · exact hOther

/-- The sequence rule for a first half that does not touch the record. Nothing has
to be said about its result, at the price of a rest that copes with every one. -/
theorem Immediate.seq {program : Program Request Answer Event Fault First}
    {rest : First → Program Request Answer Event Fault Second}
    {post : Except Fault Second → List (Entry Request Answer Event) → Prop} (h : Immediate program)
    (hFault : ∀ fault, post (.error fault) [])
    (hRest : ∀ result, Ensures admits (rest result) post) :
    Ensures admits (program >>= rest) post := by
  rcases h with ⟨result, rfl⟩ | ⟨fault, rfl⟩
  · rw [pure_bind]
    exact hRest result
  · exact hFault fault

/-- A fault in the first half is the fault of the sequence, whatever comes
afterwards. -/
theorem bind_eq_fail {program : Program Request Answer Event Fault First}
    (rest : First → Program Request Answer Event Fault Second)
    (h : ∃ fault, program = .fail fault) : ∃ fault, program >>= rest = .fail fault := by
  obtain ⟨fault, rfl⟩ := h
  exact ⟨fault, rfl⟩

/-- A loop is immediate if its passes are, whether or not it is left early. -/
theorem Immediate.forIn {Acc : Type} {items : List Item} {init : Acc}
    {body : Item → Acc → Program Request Answer Event Fault (ForInStep Acc)}
    (h : ∀ item acc, Immediate (body item acc)) : Immediate (forIn items init body) := by
  induction items generalizing init with
  | nil => exact Or.inl ⟨init, rfl⟩
  | cons item items ih =>
      rw [List.forIn_cons]
      apply (h item init).bind
      intro next
      cases next with
      | done acc => exact Or.inl ⟨acc, rfl⟩
      | yield acc => exact ih

theorem Immediate.mapM {items : List Item} {f : Item → Program Request Answer Event Fault Result}
    (h : ∀ item, Immediate (f item)) : Immediate (items.mapM f) := by
  induction items with
  | nil => exact Or.inl ⟨[], rfl⟩
  | cons item items ih =>
      rw [List.mapM_cons]
      exact (h item).bind fun _ => ih.bind fun _ => Or.inl ⟨_, rfl⟩

/-- A loop that is never left early fails once one of its passes always fails.
Passes before this one may fail as well, and then with another fault. -/
theorem forIn_eq_fail {Acc : Type} {items : List Item} {init : Acc}
    {body : Item → Acc → Program Request Answer Event Fault (ForInStep Acc)}
    (h : ∀ item acc, (∃ next, body item acc = pure (.yield next)) ∨
      ∃ fault, body item acc = .fail fault)
    {culprit : Item} (hCulprit : culprit ∈ items)
    (hFail : ∀ acc, ∃ fault, body culprit acc = .fail fault) :
    ∃ fault, ForIn.forIn items init body = .fail fault := by
  induction items generalizing init with
  | nil => simp at hCulprit
  | cons item items ih =>
      rw [List.forIn_cons]
      rcases h item init with ⟨next, hBody⟩ | ⟨fault, hBody⟩
      · have hLater : culprit ∈ items := by
          rcases List.mem_cons.mp hCulprit with rfl | hLater
          · obtain ⟨fault, hBad⟩ := hFail init
            simp [hBody, pure_eq_done] at hBad
          · exact hLater
        rw [hBody, pure_bind]
        exact ih hLater
      · exact ⟨fault, by rw [hBody, fail_bind]⟩

/-- Only allowed events are emitted, whatever the environment answers. Requests are
not restricted by this, nor is the way in which the program ends. -/
def Emits (allowed : Event → Prop) (program : Program Request Answer Event Fault Result) : Prop :=
  Ensures (fun _ _ => True) program (fun _ trace => ∀ event, Entry.event event ∈ trace →
    allowed event)

section Emits

variable {allowed : Event → Prop}

theorem Immediate.emits {program : Program Request Answer Event Fault Result}
    (h : Immediate program) :
    Emits allowed program := by
  rcases h with ⟨result, rfl⟩ | ⟨fault, rfl⟩
  · intro event hEvent
    simp at hEvent
  · intro event hEvent
    simp at hEvent

/-- A request is on the record as a request, so that no event has to be allowed for
it. -/
theorem emits_request (question : Request) :
    Emits allowed (Program.request question : Program Request Answer Event Fault Answer) := by
  intro answer _ event hEvent
  simp at hEvent

/-- The events of a sequence are those of its halves; the second half must behave
for every result of the first. -/
theorem Emits.bind {program : Program Request Answer Event Fault First}
    {rest : First → Program Request Answer Event Fault Second} (h : Emits allowed program)
    (hRest : ∀ result, Emits allowed (rest result)) : Emits allowed (program >>= rest) := by
  refine Ensures.seq _ h (fun _ _ hTrace => hTrace) fun result trace hTrace => ?_
  apply (hRest result).mono
  intro _ later hLater event hEvent
  exact (List.mem_append.mp hEvent).elim (hTrace event) (hLater event)

end Emits

/-- No admitted execution ends with this fault. Other faults may occur; each one
that has to be excluded takes a proof of its own. -/
structure Avoids (admits : Request → Answer → Prop) (fault : Fault)
    (program : Program Request Answer Event Fault Result) : Prop where
  ensures : Ensures admits program (fun out _ => out ≠ .error fault)

section Avoids

variable {fault : Fault}

theorem avoids_pure (result : Result) :
    Avoids admits fault (pure result : Program Request Answer Event Fault Result) := by
  constructor
  intro hFault
  cases hFault

/-- A program that always fails avoids exactly the faults other than its own. -/
theorem avoids_fail {other : Fault} :
    Avoids admits fault (.fail other : Program Request Answer Event Fault Result) ↔
      other ≠ fault := by
  constructor
  · exact fun h hEq => h.ensures (congrArg Except.error hEq)
  · exact fun hNe => ⟨fun hEq => hNe (Except.error.inj hEq)⟩

/-- A sequence avoids a fault if both halves do, the second one for every result of
the first. -/
theorem Avoids.bind {program : Program Request Answer Event Fault First}
    {rest : First → Program Request Answer Event Fault Second} (h : Avoids admits fault program)
    (hRest : ∀ result, Avoids admits fault (rest result)) :
    Avoids admits fault (program >>= rest) := by
  refine ⟨Ensures.seq _ h.ensures ?_ fun result _ _ => (hRest result).ensures⟩
  intro other _ hOther hEq
  cases hEq
  exact hOther rfl

theorem avoids_request (question : Request) :
    Avoids admits fault (Program.request question : Program Request Answer Event Fault Answer) := by
  constructor
  rintro answer _ ⟨⟩

theorem Avoids.ite {condition : Prop} [Decidable condition]
    {program other : Program Request Answer Event Fault Result} (h : Avoids admits fault program)
    (hOther : Avoids admits fault other) :
    Avoids admits fault (if condition then program else other) := by
  split
  · exact h
  · exact hOther

theorem Avoids.log {event : Event} {rest : Unit → Program Request Answer Event Fault Result}
    (h : Avoids admits fault (rest ())) : Avoids admits fault (Program.log event >>= rest) :=
  ⟨Ensures.log h.ensures⟩

/-- A loop avoids a fault if its passes do, each for the items of the list and any
accumulator. -/
theorem Avoids.forIn {Acc : Type} {items : List Item} {init : Acc}
    {body : Item → Acc → Program Request Answer Event Fault (ForInStep Acc)}
    (h : ∀ item ∈ items, ∀ acc, Avoids admits fault (body item acc)) :
    Avoids admits fault (forIn items init body) := by
  induction items generalizing init with
  | nil => exact avoids_pure init
  | cons item items ih =>
      rw [List.forIn_cons]
      apply (h item List.mem_cons_self init).bind
      intro next
      cases next with
      | done acc => exact avoids_pure acc
      | yield acc => exact ih fun item hItem => h item (List.mem_cons_of_mem _ hItem)

theorem Avoids.mapM {items : List Item} {f : Item → Program Request Answer Event Fault Result}
    (h : ∀ item, Avoids admits fault (f item)) : Avoids admits fault (items.mapM f) := by
  induction items with
  | nil => exact avoids_pure []
  | cons item items ih =>
      rw [List.mapM_cons]
      exact (h item).bind fun _ => ih.bind fun _ => avoids_pure _

end Avoids

/-- An oracle whose every answer is admitted, in every state. It may still answer
equal requests differently. -/
def Admitted (admits : Request → Answer → Prop) (oracle : Oracle Request Answer State) : Prop :=
  ∀ state request, admits request (oracle state request).1

/-- Contracts hold of executions against any oracle they admit. This is where
statements about all behaviours turn into statements about runs. -/
theorem Ensures.run {program : Program Request Answer Event Fault Result}
    {oracle : Oracle Request Answer State} (h : Ensures admits program post)
    (hOracle : Admitted admits oracle) (state : State) :
    post (program.run oracle state).result (program.run oracle state).trace := by
  induction program generalizing post state with
  | done result => exact h
  | fail fault => exact h
  | emit event next ih => exact ih h state
  | ask request next ih =>
      exact ih _ (h _ (hOracle state request)) _

end Interaction.Program
