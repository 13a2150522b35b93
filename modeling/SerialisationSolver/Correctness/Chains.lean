import SerialisationSolver.Correctness.Answers

/-! The calls of a run in terms of chains. The active arguments and the stale
ones of a call are those of the frame after the sets picked so far. -/
namespace SerialisationSolver

open Interaction Interaction.Program Satisfiability Argumentation

/-- What holds at every call, stale arguments included: array and bits are those of
the frame after the sets picked so far. -/
structure ChainInvariant (af : AF) (active : IterableBitSet) (sequence : Sequence) : Prop where
  reached : Reached af active
  chain : StaleChain af.Attacks af.arguments (sequence.map setOf)
  frame : active.frame = frameAfter af.Attacks af.arguments (sequence.map setOf)

/-- A set that is initial when stale arguments count as helpers, given by some of
the active arguments. -/
structure InitialLayer (af : AF) (active : IterableBitSet) (set : List Nat) : Prop where
  drawn : ∀ a ∈ set, a ∈ active.array
  initial : IsInitialWith af.Attacks active.actives active.stales (setOf set)

section

variable {af : AF} {active : IterableBitSet} {sequence : Sequence} {set : List Nat}

theorem chainInvariant_full (af : AF) : ChainInvariant af (.full af.args) [] where
  reached := full_reached af
  chain := trivial
  frame := full_frame af

/-- Taking such a set keeps the invariant: `get_reduct` makes the step from frame to
frame, the bits that it leaves behind included. -/
theorem ChainInvariant.getReduct (h : af.WellFormed) (hInv : ChainInvariant af active sequence)
    (hLayer : InitialLayer af active set) :
    ChainInvariant af (getReduct af active set) (sequence ++ [set]) where
  reached := hInv.reached.getReduct h hLayer.drawn
  chain := by
    rw [List.map_append, List.map_singleton, staleChain_concat, ← hInv.frame]
    exact ⟨hInv.chain, hLayer.initial⟩
  frame := by
    rw [List.map_append, List.map_singleton, getReduct_frame h hInv.reached.valid hLayer.drawn,
      hInv.frame, frameAfter_concat]

/-- A mode whose sets come from `enumerate_initial` takes sets that are initial with
stale helpers, while the literals fit. -/
theorem takes_initial_of_candidates {Flag : Type} {mode : Mode Flag} (h : af.WellFormed)
    (hSmall : 2 * af.args < 2 ^ 31)
    (hCandidates : mode.candidates = fun fuel active => enumerateInitial fuel af active) :
    mode.Takes Correct (ChainInvariant af) (InitialLayer af) := by
  intro fuel active sequence hInv
  rw [hCandidates]
  apply (enumerateInitial_returns h hInv.reached hSmall fuel).mono
  intro out trace hPost
  obtain ⟨hQuiet, hOut⟩ := hPost
  refine ⟨hQuiet, ?_⟩
  rintro sets rfl set hSet -
  exact ⟨hOut.drawn hSet, hOut.initial hSet⟩

/-- The direct scan takes unattacked arguments, and these are initial. No bound is
needed, as no literal is formed. -/
theorem strongAdmissibleMode_takes_initial (isGrounded : Bool) :
    (strongAdmissibleMode af isGrounded).Takes Correct (ChainInvariant af) (InitialLayer af) := by
  intro fuel active sequence hInv
  refine ⟨quiet_nil, ?_⟩
  rintro sets ⟨⟩ set hSet hSkip
  obtain ⟨a, ha, rfl⟩ := List.mem_map.mp hSet
  have hFree := (isAttacked_eq_false_iff hInv.reached.valid a).mp hSkip
  refine ⟨by simpa using ha, ?_⟩
  rw [setOf_singleton]
  exact hFree.isInitialWith ha

/-- All enumerators are covered by one of these two, each under its own condition on
the size. -/
theorem Enumerator.setup_takes_initial (h : af.WellFormed) {enumerator : Enumerator}
    (hFits : enumerator.Fits af) :
    (enumerator.setup h).mode.Takes Correct (ChainInvariant af) (InitialLayer af) := by
  cases enumerator with
  | admissible => exact takes_initial_of_candidates h hFits rfl
  | complete => exact takes_initial_of_candidates h hFits rfl
  | strongAdmissible isGrounded => exact strongAdmissibleMode_takes_initial isGrounded
  | stable => exact takes_initial_of_candidates h hFits rfl
  | unchallenged => exact takes_initial_of_candidates h hFits rfl
  | argumentAdmissible => exact takes_initial_of_candidates h hFits rfl

end

/-- The invariant holds at every call of a run, so that a call is known once the
sets before it are. -/
theorem CorrectRun.chainInvariant {af : AF} {enumerator : Enumerator}
    (run : CorrectRun af enumerator)
    (h : af.WellFormed) {active : IterableBitSet} {sequence : Sequence}
    (hCall : run.MakesCall active sequence) : ChainInvariant af active sequence := by
  by_cases hFits : enumerator.Fits af
  · have hRecord : CallRecord af (ChainInvariant af) (InitialLayer af) [] run.trace := by
      rw [trace, (enumerator.setup h).start_eq]
      exact (search_calls (Enumerator.setup_takes_initial h hFits)
        (fun _ _ _ hInv hLayer => hInv.getReduct h hLayer) run.fuel (chainInvariant_full af)).run
        run.correct run.state
    cases hCall with
    | inl hFirst =>
        obtain ⟨rfl, rfl⟩ := hFirst
        exact chainInvariant_full af
    | inr hLater =>
        obtain ⟨before, set, hEvent⟩ := hLater
        obtain ⟨earlier, hInv, hLayer, rfl, rfl⟩ := hRecord.recurses _ _ _ _ hEvent
        exact hInv.getReduct h hLayer
  · obtain ⟨rfl, rfl⟩ := run.call_eq_full h hFits hCall
    exact chainInvariant_full af

end SerialisationSolver
