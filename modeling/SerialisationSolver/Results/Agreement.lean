import SerialisationSolver.Correctness.Answers
import SerialisationSolver.Correctness.Framework
import SerialisationSolver.Correctness.Picks
import SerialisationSolver.Argumentation.Hierarchy

/-! Enumerators compared with each other. Each of them runs on its own, against a
solver of its own, and the printed sequences are compared as lists of numbers. -/
namespace SerialisationSolver

open Argumentation

section Lists

variable {n : Nat} {sequence longer : Sequence}

theorem mem_unionOf_map {a : Nat} : a ∈ unionOf (sequence.map setOf) ↔
    ∃ set ∈ sequence, a ∈ set := by
  simp

theorem mem_getLast?_map {a : Nat} :
    (∃ S ∈ (sequence.map setOf).getLast?, a ∈ S) ↔ ∃ set ∈ sequence.getLast?, a ∈ set := by
  simp [List.getLast?_map]

/-- Increasing lists extend each other as the sets they stand for do, so that
prefixes can be compared on either level. -/
theorem exists_append_of_map {ms : List (Set Nat)}
    (hOrdered : ∀ set ∈ sequence, set.Sublist (List.range n))
    (hOrdered' : ∀ set ∈ longer, set.Sublist (List.range n))
    (hMap : longer.map setOf = sequence.map setOf ++ ms) :
    ∃ more, longer = sequence ++ more ∧ more.map setOf = ms := by
  obtain ⟨first, more, rfl, hFirst, hMore⟩ := List.map_eq_append_iff.mp hMap
  have hSame : first = sequence :=
    map_setOf_injOn (fun set hSet => hOrdered' set (List.mem_append_left _ hSet)) hOrdered hFirst
  exact ⟨more, by rw [hSame], hMore⟩

end Lists

section Grounded

variable {af : AF} (h : af.WellFormed)
include h

theorem CorrectRun.sequences_eq_empty {enumerator : Enumerator} (run : CorrectRun af enumerator)
    (hFits : ¬ enumerator.Fits af) : run.sequences = ∅ := by
  ext sequence
  simp [run.mem_sequences h, hFits]

/-- Once a variable is out of range, ES-CO prints nothing while ES-GR still does, as
it needs no variables. -/
theorem grounded_sequences_ne (hLarge : ¬ 2 * af.args < 2 ^ 31)
    (gr : CorrectRun af (.strongAdmissible true)) (sa : CorrectRun af (.strongAdmissible false))
    (co : CorrectRun af .complete) : gr.sequences ≠ sa.sequences ∩ co.sequences := by
  obtain ⟨ls, hls⟩ := exists_mem_reported_unattackedTree (R := af.Attacks) af.arguments_finite
  obtain ⟨hChain, hEnd⟩ := mem_reported_unattackedTree.mp hls
  obtain ⟨sequence, hSequence, -⟩ := gr.exists_sequence h trivial
    (mem_reported_strongAdmissible.mpr ⟨hChain, fun _ => hEnd trivial⟩)
  rw [co.sequences_eq_empty h hLarge, Set.inter_empty]
  exact Set.Nonempty.ne_empty ⟨sequence, hSequence⟩

/-- The sequences of ES-GR are those that both ES-SA and ES-CO print, as long as the
variables of ES-CO fit. The three runs are independent, each with a solver of its
own. -/
theorem grounded_sequences_iff (gr : CorrectRun af (.strongAdmissible true))
    (sa : CorrectRun af (.strongAdmissible false)) (co : CorrectRun af .complete) :
    gr.sequences = sa.sequences ∩ co.sequences ↔ 2 * af.args < 2 ^ 31 := by
  constructor
  · intro hSame
    by_contra hLarge
    exact grounded_sequences_ne h hLarge gr sa co hSame
  · intro hSmall
    ext sequence
    simp only [Set.mem_inter_iff, gr.mem_sequences h, sa.mem_sequences h, co.mem_sequences h,
      mem_reported_strongAdmissible, mem_reported_complete]
    constructor
    · rintro ⟨hOrdered, -, hChain, hEnd⟩
      exact ⟨⟨hOrdered, trivial, hChain, by simp⟩, hOrdered, hSmall, hChain.staleChain,
        hEnd trivial⟩
    · rintro ⟨⟨hOrdered, -, hChain, -⟩, -, -, -, hEnd⟩
      exact ⟨hOrdered, trivial, hChain, fun _ => hEnd⟩

end Grounded

theorem grounded_sequences_overlap :
    (CorrectRun.ofBruteForce overlap (.strongAdmissible true)).sequences =
      (CorrectRun.ofBruteForce overlap (.strongAdmissible false)).sequences ∩
        (CorrectRun.ofBruteForce overlap .complete).sequences :=
  (grounded_sequences_iff overlap_wellFormed _ _ _).mpr (by decide)

/-- With `2 ^ 30` arguments and no attacks, ES-CO prints nothing, whereas ES-GR
picks the arguments one by one. -/
theorem grounded_sequences_large :
    (CorrectRun.ofBruteForce (AF.empty.setArguments (2 ^ 30)) (.strongAdmissible true)).sequences ≠
      (CorrectRun.ofBruteForce (AF.empty.setArguments (2 ^ 30))
          (.strongAdmissible false)).sequences ∩
        (CorrectRun.ofBruteForce (AF.empty.setArguments (2 ^ 30)) .complete).sequences := by
  have hLarge : ¬ 2 * (AF.empty.setArguments (2 ^ 30)).args < 2 ^ 31 := by
    have hArgs : (AF.empty.setArguments (2 ^ 30)).args = 2 ^ 30 := rfl
    omega
  have hWell := AF.setArguments_wellFormed (show 2 ^ 30 < 2 ^ 32 by omega)
  exact grounded_sequences_ne hWell hLarge _ _ _

section Acceptance

variable {af : AF} (h : af.WellFormed)
include h

/-- The goal-directed search prints the admissible sequences whose last set contains
the argument. No bound is needed: out of range neither of the two runs prints
anything. -/
theorem acceptance_sequences (argument : Nat) (goal : CorrectRun af (.argumentAdmissible argument))
    (ad : CorrectRun af (.admissible false)) :
    goal.sequences =
      {sequence | sequence ∈ ad.sequences ∧ ∃ set ∈ sequence.getLast?, argument ∈ set} := by
  ext sequence
  have hGoal : sequence.map setOf ∈ Enumerator.reported af (.argumentAdmissible argument) ↔
      StaleChain af.Attacks af.arguments (sequence.map setOf) ∧
        ∃ set ∈ sequence.getLast?, argument ∈ set := by
    rw [← mem_getLast?_map]
    exact mem_reported_acceptanceTree
  have hAdmissible : sequence.map setOf ∈ Enumerator.reported af (.admissible false) ↔
      StaleChain af.Attacks af.arguments (sequence.map setOf) :=
    mem_reported_admissible.trans (and_iff_left (by simp))
  simp only [Set.mem_ofPred_eq, goal.mem_sequences h, ad.mem_sequences h, hGoal, hAdmissible,
    Enumerator.Fits, and_assoc]

end Acceptance

/-- Argument 4 of `overlap` is picked third, and the run for it stops there. -/
theorem acceptance_sequences_overlap :
    [[0], [1], [4]] ∈ (CorrectRun.ofBruteForce overlap (.argumentAdmissible 4)).sequences := by
  have hPicks : Picks overlap (.full 5) [0, 1, 4] := by decide
  rw [acceptance_sequences overlap_wellFormed 4 _ (CorrectRun.ofBruteForce overlap
    (.admissible false))]
  exact ⟨hPicks.mem_sequences overlap_wellFormed (by decide) _, [4], rfl, by decide⟩

section Hierarchy

variable {af : AF} (h : af.WellFormed) {ad : CorrectRun af (.admissible false)}
include h

theorem CorrectRun.mem_admissible {sequence : Sequence} : sequence ∈ ad.sequences ↔
    (∀ set ∈ sequence, set.Sublist (List.range af.args)) ∧ 2 * af.args < 2 ^ 31 ∧
      StaleChain af.Attacks af.arguments (sequence.map setOf) := by
  simp [ad.mem_sequences h, mem_reported_admissible, Enumerator.Fits]

theorem admissible_sequences_prefix {sequence shorter : Sequence} (hMem : sequence ∈ ad.sequences)
    (hShorter : shorter <+: sequence) : shorter ∈ ad.sequences := by
  obtain ⟨more, rfl⟩ := hShorter
  obtain ⟨hOrdered, hSmall, hChain⟩ := (CorrectRun.mem_admissible h).mp hMem
  rw [List.map_append] at hChain
  exact (CorrectRun.mem_admissible h).mpr
    ⟨fun set hSet => hOrdered set (List.mem_append_left _ hSet), hSmall, hChain.of_append⟩

/-- ES-PR prints what ES-AD prints and cannot prolong. A sequence that can be
prolonged is prolonged by the admissible search. -/
theorem preferred_sequences_iff (pr : CorrectRun af (.admissible true)) {sequence : Sequence} :
    sequence ∈ pr.sequences ↔ sequence ∈ ad.sequences ∧
      ∀ longer ∈ ad.sequences, sequence <+: longer → longer = sequence := by
  constructor
  · intro hMem
    obtain ⟨hOrdered, hSmall, hReported⟩ := (pr.mem_sequences h).mp hMem
    obtain ⟨hChain, hEnd⟩ := mem_reported_admissible.mp hReported
    refine ⟨(CorrectRun.mem_admissible h).mpr ⟨hOrdered, hSmall, hChain⟩, ?_⟩
    rintro longer hLonger ⟨more, rfl⟩
    obtain ⟨-, -, hMore⟩ := (CorrectRun.mem_admissible h).mp hLonger
    cases more with
    | nil => exact List.append_nil _
    | cons set more =>
        rw [List.append_cons, List.map_append, List.map_append, List.map_singleton] at hMore
        exact absurd hMore.of_append ((exhausted_frameAfter_iff hChain).mp (hEnd rfl) (setOf set))
  · intro hBoth
    obtain ⟨hMem, hMaximal⟩ := hBoth
    obtain ⟨hOrdered, hSmall, hChain⟩ := (CorrectRun.mem_admissible h).mp hMem
    refine (pr.mem_sequences h).mpr
      ⟨hOrdered, hSmall, mem_reported_admissible.mpr ⟨hChain, fun _ => ?_⟩⟩
    apply (exhausted_frameAfter_iff hChain).mpr
    intro S hLonger
    obtain ⟨longer, hPrinted, hMap⟩ := ad.exists_sequence h hSmall
      (mem_reported_admissible.mpr ⟨hLonger, by simp⟩)
    obtain ⟨hOrdered', -, -⟩ := (CorrectRun.mem_admissible h).mp hPrinted
    obtain ⟨more, rfl, hMore⟩ := exists_append_of_map hOrdered hOrdered' hMap
    have hNil : more = [] := by simpa using hMaximal _ hPrinted (List.prefix_append _ _)
    simp [hNil] at hMore

/-- ES-ST prints what ES-AD prints and what leaves no argument neither picked nor
attacked. -/
theorem stable_sequences_iff (st : CorrectRun af .stable) {sequence : Sequence} :
    sequence ∈ st.sequences ↔ sequence ∈ ad.sequences ∧ ∀ a < af.args,
      (∃ set ∈ sequence, a ∈ set) ∨ ∃ set ∈ sequence, ∃ s ∈ set, af.Attacks s a := by
  have hCovers : (frameAfter af.Attacks af.arguments (sequence.map setOf)).active = ∅ ↔
      ∀ a < af.args, (∃ set ∈ sequence, a ∈ set) ∨ ∃ set ∈ sequence, ∃ s ∈ set, af.Attacks s a := by
    rw [active_frameAfter_eq_empty_iff]
    refine forall₂_congr fun a _ => or_congr mem_unionOf_map ?_
    simp only [mem_unionOf_map]
    grind
  simp only [st.mem_sequences h, CorrectRun.mem_admissible h, mem_reported_stable, hCovers,
    Enumerator.Fits, and_assoc]

/-- Five runs, one of each enumerator that asks the solver, and how their sequences
are contained in each other. As lists of numbers, whichever models the solvers have
chosen. -/
theorem sequences_hierarchy (ad : CorrectRun af (.admissible false))
    (pr : CorrectRun af (.admissible true))
    (co : CorrectRun af .complete) (st : CorrectRun af .stable)
    (uc : CorrectRun af (.unchallenged true)) :
    (∀ sequence ∈ ad.sequences, ∀ shorter, shorter <+: sequence → shorter ∈ ad.sequences) ∧
    (∀ sequence, sequence ∈ pr.sequences ↔ sequence ∈ ad.sequences ∧
      ∀ longer ∈ ad.sequences, sequence <+: longer → longer = sequence) ∧
    (∀ sequence, sequence ∈ st.sequences ↔ sequence ∈ ad.sequences ∧ ∀ a < af.args,
      (∃ set ∈ sequence, a ∈ set) ∨ ∃ set ∈ sequence, ∃ s ∈ set, af.Attacks s a) ∧
    st.sequences ⊆ pr.sequences ∧ pr.sequences ⊆ co.sequences ∧ uc.sequences ⊆ co.sequences ∧
      co.sequences ⊆ ad.sequences := by
  refine ⟨fun _ hMem _ => admissible_sequences_prefix h hMem, fun _ => preferred_sequences_iff h pr,
    fun _ => stable_sequences_iff h st, ?_, ?_, ?_, ?_⟩
  · intro sequence hMem
    obtain ⟨hOrdered, hSmall, hReported⟩ := (st.mem_sequences h).mp hMem
    obtain ⟨hChain, hEmpty⟩ := mem_reported_stable.mp hReported
    exact (pr.mem_sequences h).mpr ⟨hOrdered, hSmall,
      mem_reported_admissible.mpr ⟨hChain, fun _ => Frame.exhausted_of_active_eq_empty hEmpty⟩⟩
  · intro sequence hMem
    obtain ⟨hOrdered, hSmall, hReported⟩ := (pr.mem_sequences h).mp hMem
    obtain ⟨hChain, hEnd⟩ := mem_reported_admissible.mp hReported
    exact (co.mem_sequences h).mpr ⟨hOrdered, hSmall,
      mem_reported_complete.mpr ⟨hChain, (hEnd rfl).attacked⟩⟩
  · intro sequence hMem
    obtain ⟨hOrdered, hSmall, hReported⟩ := (uc.mem_sequences h).mp hMem
    have hTree : sequence.map setOf ∈ (unchallengedTree af.Attacks True).Reported
        ⟨af.arguments, ∅⟩ := by
      simpa [Enumerator.reported] using hReported
    exact (co.mem_sequences h).mpr ⟨hOrdered, hSmall,
      mem_reported_complete.mpr (mem_reported_unchallengedTree hTree)⟩
  · intro sequence hMem
    obtain ⟨hOrdered, hSmall, hReported⟩ := (co.mem_sequences h).mp hMem
    exact (CorrectRun.mem_admissible h).mpr ⟨hOrdered, hSmall,
      (mem_reported_complete.mp hReported).1⟩

end Hierarchy

theorem sequences_hierarchy_overlap :
    [[0], [1], [4], [3]] ∈ (CorrectRun.ofBruteForce overlap .stable).sequences ∧
      (CorrectRun.ofBruteForce overlap .stable).sequences ⊆
        (CorrectRun.ofBruteForce overlap (.admissible true)).sequences := by
  obtain ⟨-, -, hStable, hSub, -⟩ := sequences_hierarchy overlap_wellFormed
    (CorrectRun.ofBruteForce overlap (.admissible false))
      (CorrectRun.ofBruteForce overlap (.admissible true))
    (CorrectRun.ofBruteForce overlap .complete) (CorrectRun.ofBruteForce overlap .stable)
    (CorrectRun.ofBruteForce overlap (.unchallenged true))
  refine ⟨(hStable _).mpr ⟨overlap_picks.mem_sequences overlap_wellFormed (by decide) _, ?_⟩, hSub⟩
  decide

end SerialisationSolver
