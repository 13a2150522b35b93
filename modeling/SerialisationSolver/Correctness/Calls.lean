import SerialisationSolver.Correctness.Search

/-! The calls of the shared recursion. An invariant of the calls is preserved if
every set that is taken preserves it; the record of an execution shows each
recursive call, and what is printed is the sequence of some call. -/
namespace SerialisationSolver

open Interaction Interaction.Program Satisfiability

section Calls

variable {Flag : Type} {af : AF} {mode : Mode Flag} {Inv : IterableBitSet → Sequence → Prop}
  {Layer : IterableBitSet → List Nat → Prop}

/-- The sets that a mode takes in calls that satisfy `Inv`. What is skipped need not
have the property, and finding the sets must not show anything else than pushes. -/
def Mode.Takes (mode : Mode Flag) (admits : Query → Answer → Prop)
    (Inv : IterableBitSet → Sequence → Prop) (Layer : IterableBitSet → List Nat → Prop) : Prop :=
  ∀ fuel active sequence, Inv active sequence →
    Ensures admits (mode.candidates fuel active) (fun out trace => Quiet trace ∧
      ∀ sets, out = .ok sets → ∀ set ∈ sets, mode.skips active sets set = false → Layer active set)

/-- The calls made below a call with the sequence `start`. Each of them comes from a
call that satisfies the invariant and from a set that was taken there. -/
structure CallRecord (af : AF) (Inv : IterableBitSet → Sequence → Prop)
    (Layer : IterableBitSet → List Nat → Prop) (start : Sequence) (trace : Trace) : Prop where
  recurses : ∀ active set newActive newSequence,
    .event (.recurse active set newActive newSequence) ∈ trace → ∃ sequence,
      Inv active sequence ∧ Layer active set ∧ newActive = getReduct af active set ∧
        newSequence = sequence ++ [set]
  prints : ∀ sequence ∈ printed trace, sequence = start ∨
    ∃ active set newActive, .event (.recurse active set newActive sequence) ∈ trace

variable {start : Sequence} {trace later : Trace}

/-- Finding sets makes no call and prints nothing, so that there is nothing to be
recorded of it. -/
theorem Quiet.callRecord (h : Quiet trace) : CallRecord af Inv Layer start trace where
  recurses := by
    intro active set newActive newSequence hEvent
    obtain ⟨extension, hEq⟩ := h _ hEvent
    cases hEq
  prints := by simp [h.printed_eq_nil]

theorem printSequence_calls {admits : Query → Answer → Prop} : Ensures admits (printSequence start)
    (fun _ trace => CallRecord af Inv Layer start trace) := by
  refine ⟨by simp, fun sequence hPrinted => Or.inl ?_⟩
  simpa using hPrinted

/-- Records after each other, from one pass of the loop to the next, belong to the
same call. -/
theorem CallRecord.append (h : CallRecord af Inv Layer start trace)
    (hLater : CallRecord af Inv Layer start later) :
    CallRecord af Inv Layer start (trace ++ later) where
  recurses := by
    intro active set newActive newSequence hEvent
    cases List.mem_append.mp hEvent with
    | inl hEvent => exact h.recurses active set newActive newSequence hEvent
    | inr hEvent => exact hLater.recurses active set newActive newSequence hEvent
  prints := by
    intro sequence hPrinted
    rw [printed_append] at hPrinted
    cases List.mem_append.mp hPrinted with
    | inl hPrinted =>
        apply (h.prints sequence hPrinted).imp_right
        rintro ⟨active, set, newActive, hEvent⟩
        exact ⟨active, set, newActive, List.mem_append_left _ hEvent⟩
    | inr hPrinted =>
        apply (hLater.prints sequence hPrinted).imp_right
        rintro ⟨active, set, newActive, hEvent⟩
        exact ⟨active, set, newActive, List.mem_append_right _ hEvent⟩

/-- A recursive call is recorded before what it does itself, which then belongs to
the calls below the outer call. -/
theorem CallRecord.call {active : IterableBitSet} {set : List Nat} (hInv : Inv active start)
    (hLayer : Layer active set) (h : CallRecord af Inv Layer (start ++ [set]) trace) :
    CallRecord af Inv Layer start
      (.event (.recurse active set (getReduct af active set) (start ++ [set])) :: trace) where
  recurses := by
    intro active' set' newActive newSequence hEvent
    cases List.mem_cons.mp hEvent with
    | inl hHere =>
        simp only [Entry.event.injEq, Event.recurse.injEq] at hHere
        obtain ⟨rfl, rfl, rfl, rfl⟩ := hHere
        exact ⟨start, hInv, hLayer, rfl, rfl⟩
    | inr hLater => exact h.recurses active' set' newActive newSequence hLater
  prints := by
    intro sequence hPrinted
    rw [printed_recurse] at hPrinted
    cases h.prints sequence hPrinted with
    | inl hHere =>
        rw [hHere]
        exact Or.inr ⟨active, set, _, List.mem_cons_self⟩
    | inr hBelow =>
        obtain ⟨active', set', newActive, hEvent⟩ := hBelow
        exact Or.inr ⟨active', set', newActive, List.mem_cons_of_mem _ hEvent⟩

variable {admits : Query → Answer → Prop}

/-- The loop over the sets makes one recursive call for each set it takes, and skips
the others. The induction is on the sets that are left. -/
private theorem loop_calls {fuel : Nat} {active : IterableBitSet} {sequence : Sequence}
    {sets : List (List Nat)} (hInv : Inv active sequence)
    (hLayers : ∀ set ∈ sets, mode.skips active sets set = false → Layer active set)
    (hBelow : ∀ set, Layer active set →
      Ensures admits (search af mode fuel (getReduct af active set) (sequence ++ [set]))
        (fun _ trace => CallRecord af Inv Layer (sequence ++ [set]) trace)) :
    Ensures admits (forIn sets mode.init fun set flag =>
        if mode.skips active sets set = true then pure (ForInStep.yield flag)
        else do
          Program.log (.recurse active set (getReduct af active set) (sequence ++ [set]))
          search af mode fuel (getReduct af active set) (sequence ++ [set])
          pure (ForInStep.yield (mode.mark active set flag)))
      (fun _ trace => CallRecord af Inv Layer sequence trace) := by
  refine Ensures.loop (fun _ _ trace => CallRecord af Inv Layer sequence trace)
    quiet_nil.callRecord ?_ (fun _ _ => id)
  intro visited set flag before hSet hBefore
  cases hSkip : mode.skips active sets set with
  | true => simpa [Ensures, pure_eq_done, LoopStep] using hBefore
  | false =>
      have hLayer := hLayers set hSet hSkip
      refine Ensures.log (Ensures.seq _ (hBelow set hLayer) ?_ ?_)
      · exact fun fault later hLater => hBefore.append (hLater.call hInv hLayer)
      · intro _ later hLater
        simpa [Ensures, pure_eq_done, LoopStep] using hBefore.append (hLater.call hInv hLayer)

/-- An invariant that every taken set preserves holds of all calls. By induction on
the fuel, since each call has one unit less than the call it comes from. -/
theorem search_calls (hTakes : mode.Takes admits Inv Layer)
    (hNext : ∀ active sequence set, Inv active sequence → Layer active set →
      Inv (getReduct af active set) (sequence ++ [set]))
    (fuel : Nat) {active : IterableBitSet} {sequence : Sequence} (hInv : Inv active sequence) :
    Ensures admits (search af mode fuel active sequence)
      (fun _ trace => CallRecord af Inv Layer sequence trace) := by
  induction fuel generalizing active sequence with
  | zero => exact quiet_nil.callRecord
  | succ fuel ih =>
      rw [search]
      rcases mode.returns sequence active with _ | (_ | _)
      · refine Ensures.seq _ (hTakes (fuel + 1) active sequence hInv) ?_ ?_
        · exact fun fault trace hQuiet => hQuiet.1.callRecord
        · intro sets trace hTaken
          obtain ⟨hQuiet, hLayers⟩ := hTaken
          refine Ensures.seq _ (loop_calls hInv (hLayers sets rfl) ?_) ?_ ?_
          · exact fun set hLayer => ih (hNext active sequence set hInv hLayer)
          · exact fun fault later hLater => hQuiet.callRecord.append hLater
          · intro flag later hLater
            have hSoFar := hQuiet.callRecord.append hLater
            dsimp only
            split_ifs
            · apply printSequence_calls.mono
              intro _ final hFinal
              simpa only [List.append_assoc] using hSoFar.append hFinal
            · simpa [Ensures, pure_eq_done] using hSoFar
      · exact quiet_nil.callRecord
      · exact printSequence_calls

end Calls

section Draws

variable {Flag : Type} {af : AF} {mode : Mode Flag}

/-- The sets come from the active arguments, whatever the solver answers. This needs
no correct solver, as the program looks up its sets in the array. -/
def Mode.Draws (mode : Mode Flag) : Prop :=
  ∀ fuel active, Ensures (fun _ _ => True) (mode.candidates fuel active) (fun out trace =>
    Quiet trace ∧ ∀ sets, out = .ok sets → ∀ set ∈ sets, ∀ a ∈ set, a ∈ active.array)

/-- Every recursive call is made for a set of active arguments, in its reduct.
Whether the set is initial is left open. -/
def RecursesIntoReducts (af : AF) (trace : Trace) : Prop :=
  ∀ active set newActive newSequence, .event (.recurse active set newActive newSequence) ∈ trace →
    active.Valid af ∧ (∀ a ∈ set, a ∈ active.array) ∧ newActive = getReduct af active set

/-- The recursion goes into reducts for every solver, right or wrong, since the sets
are drawn from the active arguments in any case. -/
theorem search_recurses (h : af.WellFormed) (hDraws : mode.Draws) (fuel : Nat)
    {active : IterableBitSet} (hActive : active.Valid af) (sequence : Sequence) :
    Ensures (fun _ _ => True) (search af mode fuel active sequence)
      (fun _ trace => RecursesIntoReducts af trace) := by
  have hTakes : mode.Takes (fun _ _ => True) (fun active _ => active.Valid af)
      (fun active set => ∀ a ∈ set, a ∈ active.array) := by
    intro fuel active _ _
    apply (hDraws fuel active).mono
    intro out trace hDrawn
    exact ⟨hDrawn.1, fun sets hSets set hSet _ => hDrawn.2 sets hSets set hSet⟩
  apply (search_calls hTakes
    (fun _ _ _ hValid hSet => getReduct_valid h hValid hSet) fuel hActive).mono
  intro _ trace hCalls active set newActive newSequence hEvent
  obtain ⟨_, hValid, hSet, hNew, _⟩ := hCalls.recurses active set newActive newSequence hEvent
  exact ⟨hValid, hSet, hNew⟩

end Draws

end SerialisationSolver
