import SerialisationSolver.Interaction.Thinning
import SerialisationSolver.Correctness.Enumerators
import SerialisationSolver.Correctness.Picks

/-! Enumerators that differ only in when they print. Against one and the same
solver, right or wrong, they ask and call alike. -/
namespace SerialisationSolver

open Interaction Interaction.Program Satisfiability

/-- The event of printing a sequence, which two enumerators may differ in. -/
def Event.IsPrint : Event → Prop
  | .print _ => True
  | .push _ | .recurse _ _ _ _ => False

/-- A record without what was printed: the questions and answers, the sets found and
the calls made. -/
def unprinted (trace : Trace) : Trace :=
  trace.filter fun entry => match entry with
    | .event (.print _) => false
    | _ => true

section Modes

variable {Flag Flag' : Type} {af : AF} {mode : Mode Flag} {mode' : Mode Flag'}

/-- The modes take the same sets, and the second one always prints. Their flags may
be different, as these only decide about printing. -/
structure Mode.Thins (mode : Mode Flag) (mode' : Mode Flag') : Prop where
  returns : mode.returns = mode'.returns
  candidates : mode.candidates = mode'.candidates
  skips : mode.skips = mode'.skips
  prints : ∀ flag, mode'.prints flag = true

theorem Mode.Thins.search (h : mode.Thins mode') (fuel : Nat) (active : IterableBitSet)
    (sequence : Sequence) : Program.Thins Event.IsPrint Eq (search af mode fuel active sequence)
      (SerialisationSolver.search af mode' fuel active sequence) := by
  induction fuel generalizing active sequence with
  | zero => exact .fail _
  | succ fuel ih =>
      rw [SerialisationSolver.search, SerialisationSolver.search, h.returns, h.candidates]
      rcases mode'.returns sequence active with _ | (_ | _)
      · refine (Program.Thins.refl (mode'.candidates (fuel + 1) active)).bind ?_
        rintro sets _ rfl
        -- The flags need not agree, since only the first program looks at its own.
        refine Program.Thins.bind (show Program.Thins _ (fun _ _ => True) _ _ from
          .forIn trivial ?_) ?_
        · intro set flag flag' _
          dsimp only
          rw [h.skips]
          by_cases hSkip : mode'.skips active sets set = true
          · rw [if_pos hSkip, if_pos hSkip]
            exact .done ⟨_, _, rfl, rfl, trivial⟩
          · rw [if_neg hSkip, if_neg hSkip]
            refine .log ((ih _ _).bind ?_)
            rintro _ _ rfl
            exact .done ⟨_, _, rfl, rfl, trivial⟩
        · intro flag flag' _
          dsimp only
          rw [if_pos (h.prints flag')]
          by_cases hPrints : mode.prints flag = true
          · rw [if_pos hPrints]
            exact .refl _
          · rw [if_neg hPrints]
            exact .leave trivial (.refl _)
      · exact .refl _
      · exact .refl _

end Modes

/-- The enumerators that print only some of the sequences they visit, and for each
of them the one that prints all of these. -/
inductive Enumerator.Thins : Enumerator → Enumerator → Prop
  | preferred : Thins (.admissible true) (.admissible false)
  | complete : Thins .complete (.admissible false)
  | grounded : Thins (.strongAdmissible true) (.strongAdmissible false)
  | maximal : Thins (.unchallenged true) (.unchallenged false)

theorem Enumerator.Thins.start {few many : Enumerator} (h : few.Thins many) (fuel : Nat) (af : AF)
    (active : IterableBitSet) :
    Program.Thins Event.IsPrint Eq (few.start fuel af active) (many.start fuel af active) := by
  cases h with
  | preferred =>
      simp only [Enumerator.start, enumerateSequencesAdmissible,
        enumerateSequencesAdmissibleFrom_eq]
      have hModes : (admissibleMode af true).Thins (admissibleMode af false) :=
        ⟨rfl, rfl, rfl, fun _ => rfl⟩
      exact hModes.search fuel active []
  | complete =>
      simp only [Enumerator.start, enumerateSequencesAdmissible,
        enumerateSequencesAdmissibleFrom_eq,
        enumerateSequencesComplete, enumerateSequencesCompleteFrom_eq]
      have hModes : (completeMode af).Thins (admissibleMode af false) :=
        ⟨rfl, rfl, rfl, fun _ => rfl⟩
      exact hModes.search fuel active []
  | grounded =>
      simp only [Enumerator.start, enumerateSequencesStrongAdmissible,
        enumerateSequencesStrongAdmissibleFrom_eq]
      have hModes : (strongAdmissibleMode af true).Thins (strongAdmissibleMode af false) :=
        ⟨rfl, rfl, rfl, fun _ => rfl⟩
      exact hModes.search fuel active []
  | maximal =>
      simp only [Enumerator.start, enumerateSequencesUnchallenged,
        enumerateSequencesUnchallengedFrom_eq]
      have hModes : (unchallengedMode af true).Thins (unchallengedMode af false) :=
        ⟨rfl, rfl, rfl, fun _ => rfl⟩
      exact hModes.search fuel active []

/-- Against any solver at all, an enumerator that prints less ends alike, asks the
same questions and makes the same calls, and prints its sequences in the same order. -/
theorem thins_run {few many : Enumerator} (h : few.Thins many) (fuel : Nat) (af : AF)
    (active : IterableBitSet) {State : Type} (oracle : SatOracle State) (state : State) :
    let out := (few.start fuel af active).run oracle state
    let all := (many.start fuel af active).run oracle state
    out.result = all.result ∧ out.state = all.state ∧ unprinted out.trace = unprinted all.trace ∧
      (printed out.trace).Sublist (printed all.trace) := by
  obtain ⟨hResult, hState, hPart, hSeen⟩ := (h.start fuel af active).run oracle state
  refine ⟨hResult, hState, hSeen _ ?_, hPart.filterMap _⟩
  intro event hPrint
  cases event with
  | print sequence => rfl
  | push extension => exact hPrint.elim
  | recurse active set newActive newSequence => exact hPrint.elim

/-- With a correct solver and enough fuel both runs end, and ES-AD prints sequences
that ES-CO leaves out. -/
theorem thins_run_overlap :
    let oracle := fun (state : Unit) query => (bruteForce query, state)
    let out := (Enumerator.start (2 ^ 5) overlap (.full 5) .complete).run oracle ()
    let all := (Enumerator.start (2 ^ 5) overlap (.full 5) (.admissible false)).run oracle ()
    out.result = all.result ∧ out.state = all.state ∧ unprinted out.trace = unprinted all.trace ∧
      (printed out.trace).Sublist (printed all.trace) :=
  thins_run .complete (2 ^ 5) overlap (.full 5) _ ()

end SerialisationSolver
