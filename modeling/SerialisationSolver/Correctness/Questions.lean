import SerialisationSolver.Correctness.Recursion
import SerialisationSolver.Correctness.Answers

/-! How often the solver is asked. Every set that is pushed pays for the questions
that lowered it, and every call pays for the question that ends it. -/
namespace SerialisationSolver

open Interaction Interaction.Program Satisfiability Argumentation

/-- A question to the solver costs one, and what an execution shows costs nothing. -/
def questionCost : Entry Query Answer Event → Nat
  | .asked _ _ => 1
  | .event _ => 0

/-- The number of questions to the solver along a record, whatever is answered to
them. -/
def questions (trace : Trace) : Nat := (trace.map questionCost).sum

/-- The number of sets that `enumerate_initial` adds to its result, over all calls
of the record. -/
def pushes (trace : Trace) : Nat :=
  (trace.map fun entry => match entry with
    | .event (.push _) => 1
    | _ => 0).sum

/-- The number of recursive calls; the first call of an enumerator is not among
them. -/
def recurses (trace : Trace) : Nat :=
  (trace.map fun entry => match entry with
    | .event (.recurse _ _ _ _) => 1
    | _ => 0).sum

section Counts

@[simp] theorem questions_nil : questions [] = 0 := rfl

@[simp] theorem pushes_nil : pushes [] = 0 := rfl

@[simp] theorem recurses_nil : recurses [] = 0 := rfl

variable (trace later : Trace)

@[simp] theorem questions_append : questions (trace ++ later) = questions trace +
    questions later := by
  simp [questions]

@[simp] theorem pushes_append : pushes (trace ++ later) = pushes trace + pushes later := by
  simp [pushes]

@[simp] theorem recurses_append : recurses (trace ++ later) = recurses trace + recurses later := by
  simp [recurses]

@[simp] theorem questions_asked (query : Query) (answer : Answer) :
    questions (.asked query answer :: trace) = 1 + questions trace := rfl

@[simp] theorem pushes_asked (query : Query) (answer : Answer) :
    pushes (.asked query answer :: trace) = pushes trace := by simp [pushes]

@[simp] theorem questions_event (event : Event) :
    questions (.event event :: trace) = questions trace := by
  simp [questions, questionCost]

@[simp] theorem pushes_push (set : List Nat) :
    pushes (.event (.push set) :: trace) = 1 + pushes trace := rfl

@[simp] theorem pushes_recurse (active newActive : IterableBitSet) (set : List Nat)
    (newSequence : Sequence) :
    pushes (.event (.recurse active set newActive newSequence) :: trace) = pushes trace := by
  simp [pushes]

@[simp] theorem pushes_print (sequence : Sequence) :
    pushes (.event (.print sequence) :: trace) = pushes trace := by simp [pushes]

@[simp] theorem recurses_recurse (active newActive : IterableBitSet) (set : List Nat)
    (newSequence : Sequence) :
    recurses (.event (.recurse active set newActive newSequence) :: trace) = 1 +
      recurses trace := rfl

@[simp] theorem recurses_print (sequence : Sequence) :
    recurses (.event (.print sequence) :: trace) = recurses trace := by simp [recurses]

end Counts

theorem Quiet.recurses_eq_zero {trace : Trace} (h : Quiet trace) : recurses trace = 0 := by
  apply List.sum_eq_zero
  intro n hn
  obtain ⟨entry, hEntry, rfl⟩ := List.mem_map.mp hn
  rcases entry with ⟨query, answer⟩ | event
  · rfl
  · obtain ⟨extension, rfl⟩ := h event hEntry
    rfl

namespace ModelSearch

/-- What a set has paid for on its way down, when at most `n` arguments are active:
it cannot have lost more arguments than it lacks. -/
def lowered (n : Nat) : Option (List Nat) → Nat
  | none => 0
  | some set => n - set.length + 1

@[simp] theorem lowered_none (n : Nat) : lowered n none = 0 := rfl

/-- What the sets pushed so far and the current one have paid for. A search that is
stuck has paid for the question that made it so. -/
def paid (n : Nat) (st : ModelSearch) : Nat :=
  st.reported.length * (n + 1) + lowered n st.current + if st.stuck then 1 else 0

section

variable {af : AF} {active : IterableBitSet} {st st' : ModelSearch} {set : List Nat}

theorem blocking_current (hCurrent : st.current = some set) :
    st.blocking.current = some (setOf set) :=
  Option.map_eq_some_iff.mpr ⟨set, hCurrent, rfl⟩

theorem length_lt_of_ssubset {s t : List Nat} (hNodup : s.Nodup) (hLess : setOf s ⊂ setOf t) :
    s.length < t.length := by
  have hSubperm : s.Subperm t := List.subperm_of_subset hNodup hLess.1
  by_contra hNot
  have hPerm : s.Perm t := hSubperm.perm_of_length_le (by omega)
  exact hLess.2 fun a ha => hPerm.mem_iff.mpr ha

variable (hActive : active.Valid af) (hValid : LiteralsValid af active)
include hActive hValid

/-- The current set is not empty, since the sets that are found never are. -/
theorem Invariant.current_pos (hInv : Invariant af active st) (hCurrent : st.current = some set) :
    0 < set.length := by
  have hBlocked := hInv.blocking.current_blocked _ (blocking_current hCurrent)
  obtain ⟨⟨a, ha⟩, -⟩ := (hInv.blocking.sound _ hBlocked).sound hActive hValid
  exact List.length_pos_of_mem ha

/-- A model that is found on the way down accepts less than the current set: it lies
below, and the set itself is blocked. -/
theorem acceptedBy_length_lt (hInv : Invariant af active st) {vals : Valuation}
    (hModel : models vals (st.query af active) = true) (hCurrent : st.current = some set) :
    (acceptedBy active vals).length < set.length := by
  obtain ⟨hOpen, hBelow⟩ := open_of_models hActive hValid hInv hModel
  have hHere := blocking_current hCurrent
  apply length_lt_of_ssubset (hActive.nodup.sublist List.filter_sublist)
  exact ⟨hBelow _ hHere, hOpen.2 _ (hInv.blocking.current_blocked _ hHere)⟩

/-- Each question is paid for: by a smaller set, or by the set that gets stuck. A
push moves what was paid from the current set to the reported ones. -/
theorem Step.paid_add_le {n : Nat} (hBound : active.array.length ≤ n)
    {label : Entry Query Answer Event}
    (hInv : Invariant af active st) (hStep : Step af active st label st') :
    st.paid n + questionCost label ≤ st'.paid n := by
  cases hStep with
  | @found answer hStuck hRes hModel =>
      have hLower : lowered n st.current + 1 ≤
          lowered n (some (acceptedBy active answer.vals)) := by
        cases hCurrent : st.current with
        | none => simp [lowered]
        | some set =>
            have hLess := acceptedBy_length_lt hActive hValid hInv hModel hCurrent
            have hMost := (hInv.current_sublist set hCurrent).length_le
            simp only [lowered]
            omega
      simp only [paid, ModelSearch.found, questionCost, hStuck, Bool.false_eq_true, if_false]
      omega
  | stuck hStuck hRes hNone => simp [paid, hStuck, questionCost]
  | @push set hStuck hCurrent =>
      have hPos := hInv.current_pos hActive hValid hCurrent
      have hMost := (hInv.current_sublist set hCurrent).length_le
      have hSet : lowered n (some set) ≤ n := by
        simp only [lowered]
        omega
      simp only [paid, report, questionCost, hStuck, hCurrent, if_true, List.length_append,
        List.length_singleton, Nat.succ_mul, lowered_none, Bool.false_eq_true, if_false]
      omega

/-- At any time the questions asked are paid for, as they are after each step. -/
theorem questions_le_paid {n : Nat} (hBound : active.array.length ≤ n) {trace : Trace}
    (hRuns : Runs (Step af active) start trace st) : questions trace ≤ st.paid n := by
  have hPaid :=
    hRuns.cost_le_gain (fun _ label st' hInv hStep => hInv.step hActive hValid label st' hStep)
    questionCost (paid n) (fun _ _ _ hInv hStep => hStep.paid_add_le hActive hValid hBound hInv)
    (invariant_start af active)
  exact (Nat.le_add_left _ _).trans hPaid

/-- A set that is still being lowered pays for at most `n + 1` questions, just as
the reported ones do. -/
theorem Invariant.paid_le {n : Nat} (hBound : active.array.length ≤ n)
    (hInv : Invariant af active st) :
    st.paid n ≤ (st.reported.length + 1) * (n + 1) := by
  have hLower : lowered n st.current ≤ n := by
    cases hCurrent : st.current with
    | none => simp
    | some set =>
        have hPos := hInv.current_pos hActive hValid hCurrent
        have hMost := (hInv.current_sublist set hCurrent).length_le
        simp only [lowered]
        omega
  simp only [paid, Nat.succ_mul]
  split <;> omega

end

/-- When all minimal sets are reported, no set is being lowered: it would lie above
a reported one. -/
theorem Invariant.current_eq_none {af : AF} {active : IterableBitSet} {st : ModelSearch}
    (hInv : Invariant af active st) (hAll : Enumerates af active st.reported) :
    st.current = none := by
  cases hCurrent : st.current with
  | none => rfl
  | some set =>
      have hHere := blocking_current hCurrent
      have hWanted := hInv.blocking.sound _ (hInv.blocking.current_blocked _ hHere)
      obtain ⟨T, hBelow, hMinimal⟩ := hWanted.exists_minimal
      exact absurd hBelow (hInv.blocking.current_fresh _ hHere T ((hAll.mem_iff T).mpr hMinimal))

theorem pushes_eq {af : AF} {active : IterableBitSet} {st st' : ModelSearch} {trace : Trace}
    (hRuns : Runs (Step af active) st trace st') :
    st'.reported.length = st.reported.length + pushes trace := by
  induction hRuns with
  | nil => rfl
  | cons hFirst _ ih =>
      cases hFirst with
      | found hStuck hRes hModel => simpa [found] using ih
      | stuck hStuck hRes hNone => simpa using ih
      | push hStuck hCurrent =>
          simp only [report, List.length_append, List.length_singleton] at ih
          rw [pushes_push]
          omega

end ModelSearch

/-- A call asks one question to end, and for each set it pushes as many as the set
can lose arguments. A call that stops early was on the way to one more set. -/
theorem enumerateInitial_questions {af : AF} (h : af.WellFormed) {active : IterableBitSet}
    (hActive : active.Valid af) {n : Nat} (hBound : active.array.length ≤ n) (fuel : Nat) :
    Ensures Correct (enumerateInitial fuel af active) (fun out trace => match out with
      | .ok sets => questions trace ≤ sets.length * (n + 1) + 1 ∧ pushes trace = sets.length
      | .error _ => questions trace ≤ (pushes trace + 1) * (n + 1)) := by
  rcases enumerateInitial_cases h hActive with ⟨-, fault, -, hFails⟩ | ⟨hArgs, hValid⟩
  · rw [(hFails fuel).1]
    exact Nat.zero_le _
  · have hTrim := trim_valid hActive
    rw [← enumerateInitial_trim h hActive]
    apply (enumerateInitial_ensures hTrim hValid hArgs fuel).mono
    intro out trace hRun
    obtain ⟨st, hRuns, hOut⟩ := hRun
    have hInv := ModelSearch.invariant_of_runs hTrim hValid hRuns
    have hPaid := ModelSearch.questions_le_paid hTrim hValid hBound hRuns
    have hPushed : st.reported.length = pushes trace := by
      simpa [ModelSearch.start] using ModelSearch.pushes_eq hRuns
    cases out with
    | error fault =>
        rw [← hPushed]
        exact hPaid.trans (hInv.paid_le hTrim hValid hBound)
    | ok sets =>
        obtain ⟨hAll, rfl, -⟩ := hOut
        refine ⟨hPaid.trans ?_, hPushed.symm⟩
        simp only [ModelSearch.paid, hInv.current_eq_none hAll, ModelSearch.lowered_none]
        split <;> omega

theorem IterableBitSet.Valid.length_le {af : AF} {active : IterableBitSet}
    (hActive : active.Valid af) :
    active.array.length ≤ af.args := by
  have hSubperm : active.array.Subperm (List.range af.args) :=
    List.subperm_of_subset hActive.nodup fun a ha => List.mem_range.mpr (hActive.lt_args a ha)
  simpa using hSubperm.length_le

/-- What a call is charged: one question if it returns, and otherwise those that
were on the way to one more set. -/
def charge {Result : Type} (n : Nat) : Except Fault Result → Nat
  | .ok _ => 1
  | .error _ => n + 1

section Recursion

variable {Flag : Type} {af : AF} {mode : Mode Flag}

/-- The questions of a call are paid for by the sets it pushes, up to what the call
itself is charged. -/
def Mode.Frugal (af : AF) (mode : Mode Flag) : Prop :=
  ∀ fuel active, active.Valid af → Ensures Correct (mode.candidates fuel active) (fun out trace =>
    questions trace ≤ pushes trace * (af.args + 1) + charge af.args out)

theorem frugal_of_candidates (h : af.WellFormed)
    (hCandidates : mode.candidates = fun fuel active => enumerateInitial fuel af active) :
    mode.Frugal af := by
  intro fuel active hActive
  rw [hCandidates]
  apply (enumerateInitial_questions h hActive hActive.length_le fuel).mono
  intro out trace hPost
  cases out with
  | error fault => simpa only [charge, Nat.succ_mul] using hPost
  | ok sets =>
      obtain ⟨hAsked, hPushed⟩ := hPost
      rwa [charge, hPushed]

theorem strongAdmissibleMode_frugal (isGrounded : Bool) :
    (strongAdmissibleMode af isGrounded).Frugal af :=
  fun _ _ _ => Nat.zero_le _

/-- All enumerators are frugal: five because `enumerate_initial` is, and one because
it asks nothing. -/
theorem Enumerator.setup_frugal (h : af.WellFormed) (enumerator : Enumerator) :
    (enumerator.setup h).mode.Frugal af := by
  cases enumerator with
  | admissible => exact frugal_of_candidates h rfl
  | complete => exact frugal_of_candidates h rfl
  | strongAdmissible isGrounded => exact strongAdmissibleMode_frugal isGrounded
  | stable => exact frugal_of_candidates h rfl
  | unchallenged => exact frugal_of_candidates h rfl
  | argumentAdmissible => exact frugal_of_candidates h rfl

theorem Enumerator.setup_supplies (h : af.WellFormed) (enumerator : Enumerator) :
    (enumerator.setup h).mode.Supplies af := by
  cases enumerator with
  | admissible => exact enumerateInitial_supplies h rfl
  | complete => exact enumerateInitial_supplies h rfl
  | strongAdmissible isGrounded => exact strongAdmissibleMode_supplies isGrounded
  | stable => exact enumerateInitial_supplies h rfl
  | unchallenged => exact enumerateInitial_supplies h rfl
  | argumentAdmissible => exact enumerateInitial_supplies h rfl

/-- What a call and the calls below it ask in total. `extra` is what is set aside
for the question that ends the call. -/
def Affordable {Result : Type} (n extra : Nat) (out : Except Fault Result) (trace : Trace) : Prop :=
  questions trace + extra ≤ pushes trace * (n + 1) + recurses trace + charge n out

/-- The loop over the sets adds up what the calls below ask. The induction is on the
sets that are left. -/
private theorem loop_questions {fuel : Nat} {active : IterableBitSet} {sequence : Sequence}
    {sets : List (List Nat)} (hBelow : ∀ set ∈ sets, Ensures Correct
      (search af mode fuel (getReduct af active set) (sequence ++ [set]))
      (fun out trace => Affordable af.args 0 out trace)) :
    Ensures Correct (forIn sets mode.init fun set flag =>
      if mode.skips active sets set = true then pure (ForInStep.yield flag)
      else do
        Program.log (.recurse active set (getReduct af active set) (sequence ++ [set]))
        search af mode fuel (getReduct af active set) (sequence ++ [set])
        pure (ForInStep.yield (mode.mark active set flag)))
      (fun out trace => Affordable af.args 1 out trace) := by
  refine Ensures.loop (fun _ _ trace =>
    questions trace ≤ pushes trace * (af.args + 1) + recurses trace) (Nat.zero_le _) ?_ ?_
  · intro visited set flag before hSet hBefore
    split_ifs with hSkip
    · simpa [Ensures, pure_eq_done, LoopStep] using hBefore
    · refine Ensures.log (Ensures.seq _ (hBelow set hSet) ?_ ?_)
      · intro fault later hLater
        simp only [Affordable, charge, LoopStep, questions_append, pushes_append, recurses_append,
          questions_event, pushes_recurse, recurses_recurse, Nat.add_mul] at hLater ⊢
        omega
      · intro _ later hLater
        simp only [Affordable, charge, Ensures, pure_eq_done, LoopStep, questions_append,
          pushes_append,
          recurses_append, questions_event, pushes_recurse, recurses_recurse, List.append_nil,
          Nat.add_mul] at hLater ⊢
        omega
  · intro flag trace hTrace
    simpa [Affordable, charge] using hTrace

/-- Every call pays for the question that ends it, and every pushed set for the
questions that lowered it. Summed up over the run this bounds its questions. -/
theorem search_questions (h : af.WellFormed) (hSupplies : mode.Supplies af)
    (hFrugal : mode.Frugal af)
    (fuel : Nat) {active : IterableBitSet} (hActive : active.Valid af) (sequence : Sequence) :
    Ensures Correct (search af mode fuel active sequence) (fun out trace =>
      Affordable af.args 0 out trace) := by
  induction fuel generalizing active sequence with
  | zero => exact Nat.zero_le _
  | succ fuel ih =>
      rw [search]
      rcases mode.returns sequence active with _ | (_ | _)
      · refine Ensures.seq _ ((hSupplies (fuel + 1) active hActive).and
          (hFrugal (fuel + 1) active hActive))
          ?_ ?_
        · rintro fault trace ⟨-, hAsked⟩
          simp only [Affordable, charge] at hAsked ⊢
          omega
        · rintro sets trace ⟨⟨hQuiet, -, hSets⟩, hAsked⟩
          refine Ensures.seq _ (loop_questions fun set hSet =>
            ih (getReduct_valid h hActive (hSets sets rfl set hSet).2) _) ?_ ?_
          · intro fault later hLater
            simp only [Affordable, charge, questions_append, pushes_append, recurses_append,
              Nat.add_mul] at hAsked hLater ⊢
            omega
          · intro flag later hLater
            simp only [Affordable, charge] at hAsked hLater
            dsimp only
            split_ifs
            · simp only [Affordable, Ensures, printSequence, Program.log, charge, questions_append,
                pushes_append, recurses_append, questions_event, pushes_print, recurses_print,
                questions_nil, pushes_nil, recurses_nil, Nat.add_mul]
              omega
            · simp only [Affordable, Ensures, pure_eq_done, charge, questions_append, pushes_append,
                recurses_append, questions_nil, pushes_nil, recurses_nil, Nat.add_mul]
              omega
      · exact Nat.zero_le _
      · exact Nat.zero_le _

end Recursion

section Tally

variable {af : AF} {active : IterableBitSet}

theorem minimizeModel_pushes (fuel : Nat) (s : CadicalSatSolver) (foundExtension : Bool) :
    Ensures (fun _ _ => True) (minimizeModel af active fuel s foundExtension)
      (fun _ trace => pushes trace = 0) := by
  apply (minimizeModel_emits (fun _ => False) fuel s foundExtension).mono
  intro _ trace hNone
  apply List.sum_eq_zero
  intro n hn
  obtain ⟨entry, hEntry, rfl⟩ := List.mem_map.mp hn
  cases entry with
  | asked query answer => rfl
  | event event => exact (hNone event hEntry).elim

/-- Whatever the solver answers, the sets returned are those that were pushed. -/
theorem enumerateModels_pushes (fuel : Nat) (s : CadicalSatSolver) (result : List (List Nat)) :
    Ensures (fun _ _ => True) (enumerateModels af active fuel s result) (fun out trace =>
      ∀ sets, out = .ok sets → sets.length = result.length + pushes trace) := by
  induction fuel generalizing s result with
  | zero => simp [enumerateModels, Ensures]
  | succ fuel ih =>
      rw [enumerateModels]
      refine Ensures.seq _ (minimizeModel_pushes (fuel + 1) s false) (by simp) ?_
      rintro ⟨s', foundExtension⟩ trace hNone
      cases foundExtension with
      | false => simp [Ensures, pure_eq_done, hNone]
      | true =>
          refine Ensures.log ((ih s' _).mono ?_)
          intro out later hPost sets hSets
          have hLength := hPost sets hSets
          simp only [List.length_append, List.length_singleton] at hLength
          simp only [pushes_append, hNone, pushes_push]
          omega

theorem enumerateInitial_pushes (fuel : Nat) :
    Ensures (fun _ _ => True) (enumerateInitial fuel af active) (fun out trace =>
      ∀ sets, out = .ok sets → sets.length = pushes trace) := by
  unfold enumerateInitial
  generalize toInt32 af.args = nArgs
  split_ifs
  · rintro sets ⟨⟩
    rfl
  · refine (new_immediate _).seq (fun _ => by simp) fun s => ?_
    refine (admissibleNonempty_immediate s).seq (fun _ => by simp) fun s => ?_
    simpa using enumerateModels_pushes fuel s []

/-- What ES-AD has done after some of the sets of a call: one recursive call for
each of them and one for each set that was pushed below, and each call printed a
sequence. -/
structure Tally (visited : Nat) (trace : Trace) : Prop where
  calls : recurses trace = pushes trace + visited
  outputs : (printed trace).length = recurses trace

/-- One more set of the call, with the record of the call that is made for it. -/
theorem Tally.visit {visited : Nat} {trace later : Trace} (h : Tally visited trace)
    (hCalls : recurses later = pushes later)
    (hOutputs : (printed later).length = recurses later + 1)
    (newActive : IterableBitSet) (set : List Nat) (newSequence : Sequence) :
    Tally (visited + 1) (trace ++ .event (.recurse active set newActive newSequence) :: later) := by
  obtain ⟨hCallsBefore, hOutputsBefore⟩ := h
  constructor
  · simp only [recurses_append, recurses_recurse, pushes_append, pushes_recurse]
    omega
  · simp only [printed_append, printed_recurse, List.length_append, recurses_append,
      recurses_recurse]
    omega

/-- Whatever the solver answers: when ES-AD returns, it has made one recursive call
for each set that was pushed, and every call has printed one sequence. -/
theorem search_tally (fuel : Nat) (active : IterableBitSet) (sequence : Sequence) :
    Ensures (fun _ _ => True) (search af (admissibleMode af false) fuel active sequence)
      (fun out trace => out = .ok () →
        recurses trace = pushes trace ∧ (printed trace).length = recurses trace + 1) := by
  induction fuel generalizing active sequence with
  | zero => simp [search, Ensures]
  | succ fuel ih =>
      rw [search]
      refine Ensures.seq _ ((enumerateInitial_pushes (fuel + 1)).and
        (enumerateInitial_draws (fuel + 1)))
        (by simp) ?_
      rintro sets trace ⟨hPushed, hQuiet, -⟩
      refine Ensures.seq (fun out later => ∀ flag, out = .ok flag → Tally sets.length later) ?_
        (by simp) ?_
      · refine Ensures.loop (fun visited _ later => Tally visited.length later) ⟨rfl, rfl⟩ ?_ ?_
        · intro visited set flag before _ hBefore
          refine Ensures.log (Ensures.seq _ (ih _ _) (by simp [LoopStep]) ?_)
          intro _ later hLater
          obtain ⟨hCalls, hOutputs⟩ := hLater rfl
          simpa [Ensures, pure_eq_done, LoopStep] using hBefore.visit hCalls hOutputs _ set _
        · exact fun flag later hLater _ _ => hLater
      · intro flag later hLater
        obtain ⟨hCalls, hOutputs⟩ := hLater flag rfl
        have hSets := hPushed sets rfl
        have hNone := hQuiet.recurses_eq_zero
        simp only [admissibleMode, Bool.not_false, Bool.true_or, if_true]
        refine fun _ => ⟨?_, ?_⟩
        · simp only [recurses_append, pushes_append, recurses_print, pushes_print, recurses_nil,
            pushes_nil]
          omega
        · simp only [printed_append, printed_print, printed_nil, List.length_append,
            List.length_singleton,
            recurses_append, recurses_print, recurses_nil, hQuiet.printed_eq_nil, List.length_nil]
          omega

end Tally

section Runs

variable {af : AF} {enumerator : Enumerator} (h : af.WellFormed)
include h

/-- While the variables fit a run returns, as it neither fails nor lacks fuel. -/
theorem CorrectRun.result_of_fits (run : CorrectRun af enumerator) (hFits : enumerator.Fits af) :
    run.result = .ok () := by
  have hLength : (IterableBitSet.full af.args).array.length = af.args := List.length_range
  rw [result, (enumerator.setup h).start_eq]
  have hEnds := search_ensures h ((enumerator.setup h).implements hFits) run.fuel
    (enumerator.setup h).good (by rw [hLength]; exact run.enough)
  exact (hEnds.run run.correct run.state).1

/-- A run returns exactly if all variables fit. Otherwise it fails in its first
call. -/
theorem CorrectRun.result_ok_iff (run : CorrectRun af enumerator) :
    run.result = .ok () ↔ enumerator.Fits af := by
  refine ⟨fun hReturns => ?_, run.result_of_fits h⟩
  by_contra hFits
  obtain ⟨fault, hFault⟩ := (enumerator.setup h).fails hFits run.fuel
  rw [result, (enumerator.setup h).start_eq, hFault] at hReturns
  cases hReturns

/-- The bound on the questions holds of every run, also of those that fail. -/
theorem CorrectRun.affordable (run : CorrectRun af enumerator) :
    Affordable af.args 0 run.result run.trace := by
  rw [result, trace, (enumerator.setup h).start_eq]
  have hAsked := search_questions h (enumerator.setup_supplies h)
    (enumerator.setup_frugal h) run.fuel
    (full_valid af) []
  exact hAsked.run run.correct run.state

end Runs

end SerialisationSolver
