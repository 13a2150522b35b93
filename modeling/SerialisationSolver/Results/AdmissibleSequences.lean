import SerialisationSolver.Correctness.Runs
import SerialisationSolver.Correctness.Picks

/-! Sequences of initial sets: `enumerate_sequences_admissible` with and without
its flag, and `sequences_argument_admissible`. All of them fail on a stale
argument that answers an attacker in place of the set that was picked. -/
namespace SerialisationSolver

open Argumentation

/-- In every run ES-AD prints the serialisation sequences, taken as sequences of
sets, and nothing else. -/
def PrintsSerialisations (af : AF) : Prop :=
  EveryRun af (fun fuel => enumerateSequencesAdmissible fuel af (.full af.args) false)
    (fun sequences => ∀ ls, ls ∈ sequences ↔ IsSerialisation af.Attacks af.arguments ls)

/-- In every run the unions of the sequences that ES-PR prints are the preferred
extensions. Several sequences may have the same union. -/
def PrintsPreferred (af : AF) : Prop :=
  EveryRun af (fun fuel => enumerateSequencesAdmissible fuel af (.full af.args) true)
    (fun sequences => ∀ E, (∃ ls ∈ sequences, unionOf ls = E) ↔ Preferred af.Attacks af.arguments E)

/-- In every run something is printed exactly if the argument is credulously
accepted, that is, a member of some admissible set. -/
def DecidesAcceptance (af : AF) (argument : Nat) : Prop :=
  EveryRun af (fun fuel => sequencesArgumentAdmissible fuel af (.full af.args) argument)
    (fun sequences => sequences.Nonempty ↔
      ∃ E, Admissible af.Attacks af.arguments E ∧ argument ∈ E)

/-- Exactly when ES-AD is right: all variables fit, and no set of any chain leaves
an attacker unanswered. Such a set is initial with the stale arguments as helpers
and not without them. -/
theorem printsSerialisations_iff {af : AF} (h : af.WellFormed) :
    PrintsSerialisations af ↔ 2 * af.args < 2 ^ 31 ∧
      ∀ ls S, StaleChain af.Attacks af.arguments (ls ++ [S]) →
        ∀ b, ¬ Unanswered af.Attacks (reduct af.Attacks af.arguments (unionOf ls)) S b := by
  rw [PrintsSerialisations, everyRun_admissible_iff h,
    ← staleChain_iff_isSerialisation af.arguments_finite]
  by_cases hSmall : 2 * af.args < 2 ^ 31
  · simp only [Set.mem_ofPred_eq, hSmall, true_and, Bool.false_eq_true, false_imp_iff, and_true]
  · simp only [Set.mem_ofPred_eq, hSmall, false_and, false_iff, iff_false]
    -- The empty sequence is lost.
    intro hAll
    exact hAll [] (by simp [IsSerialisation])

theorem printsSerialisations_harmless : PrintsSerialisations harmless :=
  (printsSerialisations_iff harmless_wellFormed).mpr ⟨by decide, harmless_sources.leavesNoneOpen⟩

theorem overlap_not_printsSerialisations : ¬ PrintsSerialisations overlap := by
  rw [PrintsSerialisations, everyRun_admissible_iff overlap_wellFormed]
  intro hAll
  have hPicks : Picks overlap (.full 5) [0, 1, 4] := by decide
  have hPrinted := (hAll _).mp ⟨by decide, hPicks.staleChain overlap_wellFormed, by simp⟩
  have hSplit : [0, 1, 4].map ({·}) = [{0}, {1}] ++ {4} :: ([] : List (Set Nat)) := rfl
  exact hPrinted.not_unanswered hSplit 3 overlap_unanswered

/-- Exactly when ES-PR is right: all variables fit, and chains that cannot be
prolonged answer every attacker. An attacker that a set leaves unanswered does no
harm here if a later set attacks it. -/
theorem printsPreferred_iff {af : AF} (h : af.WellFormed) :
    PrintsPreferred af ↔ 2 * af.args < 2 ^ 31 ∧
      ∀ ls, StaleChain af.Attacks af.arguments ls →
        (frameAfter af.Attacks af.arguments ls).Exhausted af.Attacks →
        Answered af.Attacks af.arguments ls := by
  rw [PrintsPreferred, everyRun_admissible_iff h, ← preferred_iff_answered af.arguments_finite]
  by_cases hSmall : 2 * af.args < 2 ^ 31
  · simp only [Set.mem_ofPred_eq, hSmall, true_and, true_imp_iff]
  · simp only [Set.mem_ofPred_eq, hSmall, false_and, exists_false, false_iff, iff_false]
    intro hAll
    obtain ⟨E, hE⟩ := exists_preferred (R := af.Attacks) af.arguments_finite
    exact hAll E hE

theorem printsPreferred_harmless : PrintsPreferred harmless := by
  refine (printsPreferred_iff harmless_wellFormed).mpr ⟨by decide, fun ls hChain _ => ?_⟩
  exact harmless_sources.answered hChain

theorem overlap_not_printsPreferred : ¬ PrintsPreferred overlap := by
  rw [PrintsPreferred, everyRun_admissible_iff overlap_wellFormed]
  intro hAll
  have hChain := overlap_picks.staleChain overlap_wellFormed
  have hEnd : (frameAfter overlap.Attacks overlap.arguments [{0}, {1}, {4}, {3}]).Exhausted
      overlap.Attacks := by
    intro S hS
    obtain ⟨a, ha⟩ := hS.nonempty
    simpa [overlap_end] using hS.admissibleWith.subset ha
  have hPreferred := (hAll _).mp ⟨_, ⟨by decide, hChain, fun _ => hEnd⟩, rfl⟩
  exact overlap_not_answered (hChain.admissible_iff.mp hPreferred.prop)

/-- Exactly when AS-AD is right. Whatever chain picks the argument, some chain that
answers every attacker has to pick it as well; out of range nothing is printed,
which is right for arguments that are not accepted. -/
theorem decidesAcceptance_iff {af : AF} (h : af.WellFormed) {argument : Nat} :
    DecidesAcceptance af argument ↔
      (2 * af.args < 2 ^ 31 ∧ ∀ ls, StaleChain af.Attacks af.arguments ls → argument ∈ unionOf ls →
        ∃ ms, StaleChain af.Attacks af.arguments ms ∧ Answered af.Attacks af.arguments ms ∧
          argument ∈ unionOf ms) ∨
      (2 ^ 31 ≤ 2 * af.args ∧ ¬ ∃ E, Admissible af.Attacks af.arguments E ∧ argument ∈ E) := by
  have hAccepted : (∃ E, Admissible af.Attacks af.arguments E ∧ argument ∈ E) ↔
      ∃ ms, StaleChain af.Attacks af.arguments ms ∧ Answered af.Attacks af.arguments ms ∧
        argument ∈ unionOf ms := by
    constructor
    · intro hAccepted
      obtain ⟨E, hE, hMem⟩ := hAccepted
      obtain ⟨ms, hChain, rfl⟩ := exists_staleChain_of_admissible (G := ∅) af.arguments_finite hE
      exact ⟨ms, hChain, StaleChain.admissible_iff hChain |>.mp hE, hMem⟩
    · intro hPicked
      obtain ⟨ms, hChain, hAnswered, hMem⟩ := hPicked
      exact ⟨unionOf ms, hChain.admissible_iff.mpr hAnswered, hMem⟩
  rw [DecidesAcceptance, everyRun_acceptance_iff h]
  by_cases hSmall : 2 * af.args < 2 ^ 31
  · simp only [hSmall, true_and, Nat.not_le.mpr hSmall, false_and, or_false, Set.nonempty_def,
      Set.mem_ofPred_eq, exists_mem_reported_acceptanceTree]
    rw [← hAccepted]
    constructor
    · exact fun hSame ls hChain hMem => hSame.mp ⟨ls, hChain, hMem⟩
    · rintro hShown
      refine ⟨fun ⟨ls, hChain, hMem⟩ => hShown ls hChain hMem, fun hMem => ?_⟩
      obtain ⟨ms, hChain, -, hMem⟩ := hAccepted.mp hMem
      exact ⟨ms, hChain, hMem⟩
  · simp only [hSmall, false_and, false_or, Nat.not_lt.mp hSmall, true_and, Set.ofPred_false,
      Set.not_nonempty_empty, false_iff]

theorem decidesAcceptance_harmless : DecidesAcceptance harmless 3 := by
  apply (decidesAcceptance_iff harmless_wellFormed).mpr
  refine Or.inl ⟨by decide, fun ls hChain hMem => ?_⟩
  exact ⟨ls, hChain, harmless_sources.answered hChain, hMem⟩

/-- Argument 4 would have to be defended against 3 by 2, which 0 attacks. The search
prints a sequence with 4 all the same. -/
theorem overlap_not_decidesAcceptance : ¬ DecidesAcceptance overlap 4 := by
  rw [DecidesAcceptance, everyRun_acceptance_iff overlap_wellFormed]
  intro hAll
  have hPicks : ∃ ls, StaleChain overlap.Attacks overlap.arguments ls ∧ 4 ∈ unionOf ls :=
    ⟨_, overlap_picks.staleChain overlap_wellFormed, by simp⟩
  obtain ⟨ls, hReported⟩ := exists_mem_reported_acceptanceTree.mpr hPicks
  obtain ⟨E, hE, hMem⟩ := hAll.mp ⟨ls, by decide, hReported⟩
  obtain ⟨c, hc, hAttack⟩ := hE.defended 4 hMem 3 (show 3 < 5 by decide) (by decide)
  obtain rfl : c = 2 := List.mem_singleton.mp hAttack
  obtain ⟨d, -, hAttack⟩ := hE.defended 2 hc 0 (show 0 < 5 by decide) (by decide)
  exact absurd hAttack (List.not_mem_nil)

end SerialisationSolver
