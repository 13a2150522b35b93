import SerialisationSolver.Correctness.Runs
import SerialisationSolver.Correctness.Picks

/-! Unions of printed sequences. No extension is lost while all literals fit,
but complete, stable and grounded sequences may end in a set that is none. -/
namespace SerialisationSolver

open Argumentation

/-- In every run each admissible, complete and stable extension is the union of a
sequence that is printed for it. More may be printed. -/
structure LosesNoExtension (af : AF) : Prop where
  admissible : EveryRun af (fun fuel => enumerateSequencesAdmissible fuel af (.full af.args) false)
    (fun sequences => ∀ E, Admissible af.Attacks af.arguments E → ∃ ls ∈ sequences, unionOf ls = E)
  complete : EveryRun af (fun fuel => enumerateSequencesComplete fuel af (.full af.args))
    (fun sequences => ∀ E, Complete af.Attacks af.arguments E → ∃ ls ∈ sequences, unionOf ls = E)
  stable : EveryRun af (fun fuel => enumerateSequencesStable fuel af (.full af.args))
    (fun sequences => ∀ E, Stable af.Attacks af.arguments E → ∃ ls ∈ sequences, unionOf ls = E)

/-- In every run of ES-GR some sequence is printed, and the union of each is the
grounded extension. -/
def PrintsGrounded (af : AF) : Prop :=
  EveryRun af (fun fuel => enumerateSequencesStrongAdmissible fuel af (.full af.args) true)
    (fun sequences => sequences.Nonempty ∧
      ∀ ls ∈ sequences, unionOf ls = grounded af.Attacks af.arguments)

/-- In every run of ES-ST the unions of the printed sequences are stable. -/
def PrintsStable (af : AF) : Prop :=
  EveryRun af (fun fuel => enumerateSequencesStable fuel af (.full af.args))
    (fun sequences => ∀ ls ∈ sequences, Stable af.Attacks af.arguments (unionOf ls))

/-- In every run of ES-CO the unions of the printed sequences are complete. -/
def PrintsComplete (af : AF) : Prop :=
  EveryRun af (fun fuel => enumerateSequencesComplete fuel af (.full af.args))
    (fun sequences => ∀ ls ∈ sequences, Complete af.Attacks af.arguments (unionOf ls))

/-- No extension is lost exactly if all variables fit. Every admissible set has a
chain, and the chain of an extension ends where the search stops. -/
theorem losesNoExtension_iff {af : AF} (h : af.WellFormed) :
    LosesNoExtension af ↔ 2 * af.args < 2 ^ 31 := by
  constructor
  · intro hAll
    obtain ⟨ls, hPrinted, -⟩ :=
      (everyRun_admissible_iff h false).mp hAll.admissible ∅ admissible_empty
    exact hPrinted.1
  · intro hSmall
    have hChain : ∀ E, Admissible af.Attacks af.arguments E →
        ∃ ls, StaleChain af.Attacks af.arguments ls ∧ unionOf ls = E :=
      fun E hE => exists_staleChain_of_admissible (G := ∅) af.arguments_finite hE
    refine ⟨?_, ?_, ?_⟩
    · rw [everyRun_admissible_iff h]
      intro E hE
      obtain ⟨ls, hls, hUnion⟩ := hChain E hE
      exact ⟨ls, ⟨hSmall, hls, by simp⟩, hUnion⟩
    · rw [everyRun_complete_iff h]
      intro E hE
      obtain ⟨ls, hls, rfl⟩ := hChain E hE.1
      refine ⟨ls, ⟨hSmall, hls, fun a ha hFree => ?_⟩, rfl⟩
      obtain ⟨b, hb, hAttack⟩ := (hls.complete_iff.mp hE).2 a ha
      exact hFree b (Or.inl hb) hAttack
    · rw [everyRun_stable_iff h]
      intro E hE
      obtain ⟨ls, hls, rfl⟩ := hChain E hE.admissible
      exact ⟨ls, ⟨hSmall, hls, hE.frameAfter_active_eq_empty⟩, rfl⟩

theorem losesNoExtension_overlap : LosesNoExtension overlap :=
  (losesNoExtension_iff overlap_wellFormed).mpr (by decide)

/-- With `2 ^ 30` arguments nothing is printed, not even the empty sequence for the
empty set. -/
theorem not_losesNoExtension_large : ¬ LosesNoExtension (AF.empty.setArguments (2 ^ 30)) := by
  intro hAll
  have hWell := AF.setArguments_wellFormed (show 2 ^ 30 < 2 ^ 32 by decide)
  obtain ⟨ls, ⟨hSmall, -⟩, -⟩ :=
    (everyRun_admissible_iff hWell false).mp hAll.admissible ∅ admissible_empty
  exact absurd hSmall (by decide)

/-- Exactly when ES-GR is right: an argument without active attackers must not be
hidden by a stale one when the search stops. There is no bound, since no variable is
used. -/
theorem printsGrounded_iff {af : AF} (h : af.WellFormed) :
    PrintsGrounded af ↔ ∀ ls, UnattackedChain af.Attacks af.arguments ls →
      (∃ a ∈ (frameAfter af.Attacks af.arguments ls).active,
        ∀ b ∈ (frameAfter af.Attacks af.arguments ls).active, ¬ af.Attacks b a) →
      ∃ a ∈ (frameAfter af.Attacks af.arguments ls).active,
        (frameAfter af.Attacks af.arguments ls).Unattacked af.Attacks a := by
  rw [PrintsGrounded, everyRun_strongAdmissible_iff h, eq_self,
    ← grounded_iff_unattacked af.arguments_finite]
  exact Iff.rfl

theorem printsGrounded_harmless : PrintsGrounded harmless := by
  refine (printsGrounded_iff harmless_wellFormed).mpr fun ls _ hFree => ?_
  obtain ⟨a, ha, hActive⟩ := hFree
  exact ⟨a, ha, (unattacked_iff_of_idle harmless_sources.idle a).mpr hActive⟩

theorem overlap_not_printsGrounded : ¬ PrintsGrounded overlap := by
  rw [PrintsGrounded, everyRun_strongAdmissible_iff overlap_wellFormed, eq_self]
  intro hAll
  have hChain : UnattackedChain overlap.Attacks overlap.arguments [{0}, {1}] := by
    refine ⟨⟨0, show 0 < 5 by decide, fun b _ => List.not_mem_nil, rfl⟩,
      ⟨1, ⟨show 1 < 5 by decide, by decide, ?_⟩, fun b _ => List.not_mem_nil, rfl⟩, trivial⟩
    rintro s rfl
    decide
  obtain ⟨a, ha, hFree⟩ :=
    (grounded_iff_unattacked overlap.arguments_finite).mp hAll _ hChain overlap_free
  exact overlap_attacked a ha hFree

/-- Exactly when ES-ST prints stable sets only: chains after which nothing is active
have to answer every attacker. Where nothing is printed there is nothing to answer. -/
theorem printsStable_iff {af : AF} (h : af.WellFormed) :
    PrintsStable af ↔ 2 ^ 31 ≤ 2 * af.args ∨
      ∀ ls, StaleChain af.Attacks af.arguments ls →
        (frameAfter af.Attacks af.arguments ls).active = ∅ →
          Answered af.Attacks af.arguments ls := by
  rw [PrintsStable, everyRun_stable_iff h, ← Nat.not_lt, ← imp_iff_not_or]
  constructor
  · intro hAll hSmall ls hls hEnd
    exact (hls.stable_iff hEnd).mp (hAll ls ⟨hSmall, hls, hEnd⟩)
  · intro hAnswered ls hPrinted
    obtain ⟨hSmall, hls, hEnd⟩ := hPrinted
    exact (hls.stable_iff hEnd).mpr (hAnswered hSmall ls hls hEnd)

theorem printsStable_harmless : PrintsStable harmless := by
  refine (printsStable_iff harmless_wellFormed).mpr (Or.inr fun ls hChain _ => ?_)
  exact harmless_sources.answered hChain

theorem overlap_not_printsStable : ¬ PrintsStable overlap := by
  rw [PrintsStable, everyRun_stable_iff overlap_wellFormed]
  intro hAll
  have hChain := overlap_picks.staleChain overlap_wellFormed
  have hStable := hAll _ ⟨by decide, hChain, overlap_end⟩
  exact overlap_not_answered (hChain.admissible_iff.mp hStable.admissible)

/-- Exactly when ES-CO prints complete sets only: chains after which no active
argument is unattacked have to answer every attacker, and stale arguments must not
stand in for active attackers. -/
theorem printsComplete_iff {af : AF} (h : af.WellFormed) :
    PrintsComplete af ↔ 2 ^ 31 ≤ 2 * af.args ∨
      ∀ ls, StaleChain af.Attacks af.arguments ls →
        (∀ a ∈ (frameAfter af.Attacks af.arguments ls).active,
          ¬ (frameAfter af.Attacks af.arguments ls).Unattacked af.Attacks a) →
        Answered af.Attacks af.arguments ls ∧
          ∀ a ∈ (frameAfter af.Attacks af.arguments ls).active,
            ∃ b ∈ (frameAfter af.Attacks af.arguments ls).active, af.Attacks b a := by
  rw [PrintsComplete, everyRun_complete_iff h, ← Nat.not_lt, ← imp_iff_not_or]
  constructor
  · intro hAll hSmall ls hls hEnd
    exact hls.complete_iff.mp (hAll ls ⟨hSmall, hls, hEnd⟩)
  · intro hShown ls hPrinted
    obtain ⟨hSmall, hls, hEnd⟩ := hPrinted
    exact hls.complete_iff.mpr (hShown hSmall ls hls hEnd)

theorem printsComplete_harmless : PrintsComplete harmless := by
  refine (printsComplete_iff harmless_wellFormed).mpr (Or.inr fun ls hChain hEnd => ?_)
  refine ⟨harmless_sources.answered hChain, fun a ha => ?_⟩
  by_contra hNone
  apply hEnd a ha
  apply (unattacked_iff_of_idle harmless_sources.idle a).mpr
  exact fun b hb hAttack => hNone ⟨b, hb, hAttack⟩

theorem overlap_not_printsComplete : ¬ PrintsComplete overlap := by
  rw [PrintsComplete, everyRun_complete_iff overlap_wellFormed]
  intro hAll
  have hPicks : Picks overlap (.full 5) [0, 1] := by decide
  have hChain := hPicks.staleChain overlap_wellFormed
  obtain ⟨a, ha, hFree⟩ := overlap_free
  have hComplete := hAll _ ⟨by decide, hChain, overlap_attacked⟩
  obtain ⟨b, hb, hAttack⟩ := (hChain.complete_iff.mp hComplete).2 a ha
  exact hFree b hb hAttack

end SerialisationSolver
