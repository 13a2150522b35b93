import SerialisationSolver.Correctness.Answers
import SerialisationSolver.Correctness.Picks

/-! What holds of the sequences along every run: how their sets relate to each
other and to the active arguments, and that none of them is printed twice. -/
namespace SerialisationSolver

open Interaction Argumentation

/-- What holds at every call of a run: its sets are not empty and free of conflicts,
they neither meet nor attack forward, and the array is what they leave. What is
printed is the sequence of a call. -/
theorem call_sequences {af : AF} (h : af.WellFormed) {enumerator : Enumerator}
    (run : CorrectRun af enumerator) :
    (∀ active sequence, run.MakesCall active sequence →
      (∀ set ∈ sequence, set ≠ [] ∧ ConflictFree af.Attacks (setOf set)) ∧
      (sequence.Pairwise fun earlier set =>
        earlier.Disjoint set ∧ ∀ a ∈ earlier, ∀ b ∈ set, ¬ af.Attacks a b) ∧
      active.array = (List.range af.args).filter fun a =>
        ∀ set ∈ sequence, a ∉ set ∧ ∀ s ∈ set, ¬ af.Attacks s a) ∧
      ∀ sequence ∈ run.sequences, ∃ active, run.MakesCall active sequence := by
  refine ⟨fun active sequence hCall => ?_, fun sequence hPrinted => run.exists_call h hPrinted⟩
  have hInv := run.invariant h hCall
  exact ⟨fun set hSet => ⟨hInv.nonempty set hSet, hInv.conflictFree set hSet⟩, hInv.separate,
    hInv.array⟩

/-- In one call of this run nothing is active any more. -/
theorem call_sequences_overlap : ∃ active,
    (CorrectRun.ofBruteForce overlap (.admissible false)).MakesCall active [[0], [1], [4], [3]] ∧
      active.array = [] := by
  obtain ⟨hCalls, hPrinted⟩ :=
    call_sequences overlap_wellFormed (CorrectRun.ofBruteForce overlap (.admissible false))
  obtain ⟨active, hCall⟩ :=
    hPrinted _ (overlap_picks.mem_sequences overlap_wellFormed (by decide) _)
  refine ⟨active, hCall, ?_⟩
  rw [(hCalls active _ hCall).2.2]
  decide

/-- No sequence is printed twice, not even as a sequence of sets, whatever the
enumerator and the solver. -/
theorem printed_once {af : AF} (h : af.WellFormed) {enumerator : Enumerator}
    (run : CorrectRun af enumerator) :
    (printed run.trace).Nodup ∧ ((printed run.trace).map (List.map setOf)).Nodup :=
  ⟨(run.printed_nodup h).of_map, run.printed_nodup h⟩

theorem printed_once_overlap :
    (printed (CorrectRun.ofBruteForce overlap (.argumentAdmissible 4)).trace).Nodup :=
  (printed_once overlap_wellFormed _).1

end SerialisationSolver
