import SerialisationSolver.Correctness.Runs
import SerialisationSolver.Correctness.Picks

/-! Maximal sequences of unchallenged initial sets. -/
namespace SerialisationSolver

open Argumentation

/-- In every run of ES-UC the printed sequences are the maximal unchallenged ones. -/
def PrintsUnchallenged (af : AF) : Prop :=
  EveryRun af (fun fuel => enumerateSequencesUnchallenged fuel af (.full af.args) true)
    (fun sequences => ∀ ls, ls ∈ sequences ↔ IsMaximalUnchallenged af.Attacks af.arguments ls)

/-- Exactly when ES-UC is right: all variables fit, and along the chains of the
search stale arguments do not change which initial sets are unchallenged. Both sides
of the inner equivalence are about the frame after a chain, the left one with its
stale arguments and the right one without. -/
theorem printsUnchallenged_iff {af : AF} (h : af.WellFormed) :
    PrintsUnchallenged af ↔ 2 * af.args < 2 ^ 31 ∧
      ∀ ls, UnchallengedChain af.Attacks af.arguments ls → ∀ S,
        (IsInitialWith af.Attacks (frameAfter af.Attacks af.arguments ls).active
            (frameAfter af.Attacks af.arguments ls).stale S ∧
          (frameAfter af.Attacks af.arguments ls).Unchallenged af.Attacks S) ↔
        UnchallengedInitial af.Attacks (reduct af.Attacks af.arguments (unionOf ls)) S := by
  rw [PrintsUnchallenged, everyRun_unchallenged_iff h, ← unchallenged_iff af.arguments_finite]
  by_cases hSmall : 2 * af.args < 2 ^ 31
  · simp only [Set.mem_ofPred_eq, hSmall, true_and]
  · simp only [Set.mem_ofPred_eq, hSmall, false_and, false_iff, iff_false]
    intro hAll
    obtain ⟨ls, hls⟩ := exists_isMaximalUnchallenged (R := af.Attacks) af.arguments_finite
    exact hAll ls hls

theorem printsUnchallenged_harmless : PrintsUnchallenged harmless := by
  refine (printsUnchallenged_iff harmless_wellFormed).mpr ⟨by decide, fun ls _ S => ?_⟩
  exact unchallenged_iff_of_idle harmless_sources.idle S

/-- As `overlap`, but argument 3 also attacks itself and is never picked. -/
def overlapSelf : AF := ⟨5, [[], [], [0, 1], [2, 3], [3]], [[2], [2], [3], [4, 3], []]⟩

theorem overlapSelf_not_printsUnchallenged : ¬ PrintsUnchallenged overlapSelf := by
  have hBuild : AF.build 5 [(0, 2), (1, 2), (2, 3), (3, 4), (3, 3)] = .ok overlapSelf := by rfl
  have hWell := (AF.build_spec (by decide) hBuild).1
  have hSmall : 2 * overlapSelf.args < 2 ^ 31 := by decide
  rw [PrintsUnchallenged, everyRun_unchallenged_iff hWell, eq_self]
  simp only [Set.mem_ofPred_eq, hSmall, true_and]
  rw [unchallenged_iff overlapSelf.arguments_finite]
  intro hSame
  have hPicks : Picks overlapSelf (.full 5) [0, 1, 4] := by decide
  obtain ⟨hFirst, hSecond, hThird, -⟩ := hPicks.staleChain hWell
  have hChain : UnchallengedChain overlapSelf.Attacks overlapSelf.arguments [{0}, {1}] := by
    refine ⟨⟨hFirst, ?_⟩, ⟨hSecond, ?_⟩, trivial⟩
    · rintro T - t - s rfl
      exact List.not_mem_nil
    · rintro T - t - s rfl
      exact List.not_mem_nil
  -- Only argument 3 attacks argument 4, and it belongs to no initial set.
  have hInitial := (hSame _ hChain {4}).mp ⟨hThird, fun T hT t ht s hs hAttack => by
    obtain rfl := Set.mem_singleton_iff.mp hs
    obtain rfl : t = 3 := List.mem_singleton.mp hAttack
    exact hT.admissibleWith.conflictFree 3 ht 3 ht (by decide)⟩
  have hActive : 3 ∈ reduct overlapSelf.Attacks overlapSelf.arguments (unionOf [{0}, {1}]) := by
    refine ⟨show 3 < 5 by decide, by simp, ?_⟩
    intro s hUnion
    obtain ⟨S, hS, hs⟩ := hUnion
    simp only [List.mem_cons, List.not_mem_nil, or_false] at hS
    rcases hS with rfl | rfl
    · obtain rfl := Set.mem_singleton_iff.mp hs
      decide
    · obtain rfl := Set.mem_singleton_iff.mp hs
      decide
  obtain ⟨c, hc, hAttack⟩ := hInitial.1.admissible.defended 4 rfl 3 hActive (by decide)
  obtain rfl := Set.mem_singleton_iff.mp hc
  exact absurd hAttack (by decide)

end SerialisationSolver
