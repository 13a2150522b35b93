import SerialisationSolver.Correctness.Chains
import SerialisationSolver.Correctness.Framework
import SerialisationSolver.Correctness.Meanings

/-! Which calls and which sequences can be trusted in any framework: those in which
no argument is attacked by two of the sets picked. -/
namespace SerialisationSolver

open Argumentation

/-- A call after such a sequence works on exactly the reduct by the sets picked so
far, and each of these was an initial set. This holds of any call of any enumerator,
in frameworks of any kind. -/
theorem calls_exact {af : AF} (h : af.WellFormed) {enumerator : Enumerator}
    (run : CorrectRun af enumerator)
    {active : IterableBitSet} {sequence : Sequence} (hCall : run.MakesCall active sequence)
    (hApart : AttacksApart af.Attacks (sequence.map setOf)) :
    active.Exact ∧ active.actives = reduct af.Attacks af.arguments (unionOf (sequence.map setOf)) ∧
      IsSerialisation af.Attacks af.arguments (sequence.map setOf) := by
  have hInv := run.chainInvariant h hCall
  have hRange := AF.attacks_mem_arguments h
  have hStale := hApart.stale_eq_empty hRange hInv.chain
  refine ⟨fun a => ⟨fun hTest => ?_, hInv.reached.valid.covers a⟩, ?_,
    (hApart.staleChain_iff hRange).mp hInv.chain⟩
  · by_contra hOut
    have hMem : a ∈ active.frame.stale := ⟨hTest, hOut⟩
    rw [hInv.frame, hStale] at hMem
    exact hMem
  · rw [← frameAfter_active, ← hInv.frame]
    rfl

/-- Each of five arguments attacks the next one, so that no two of them share a
target. -/
def path : AF := ⟨5, [[], [0], [1], [2], [3]], [[1], [2], [3], [4], []]⟩

/-- Without the first and the third argument the last one is left alone, and its bit
is the only one. -/
theorem calls_exact_path : (⟨[4], [0, 0, 0, 0, 1]⟩ : IterableBitSet).Exact := by
  have hBuild : AF.build 5 [(0, 1), (1, 2), (2, 3), (3, 4)] = .ok path := by rfl
  have hWell := (AF.build_spec (by decide) hBuild).1
  let run := CorrectRun.ofBruteForce path (.strongAdmissible true)
  have hSecond : .event (.recurse ⟨[2, 3, 4], [0, 0, 1, 1, 1]⟩ [2]
    ⟨[4], [0, 0, 0, 0, 1]⟩ [[0], [2]]) ∈
      run.trace := List.mem_cons_of_mem _ List.mem_cons_self
  have hTargets : ∀ x < 5, path.Attacks 0 x → ¬ path.Attacks 2 x := by decide
  refine (calls_exact hWell run (Or.inr ⟨_, _, hSecond⟩) (List.pairwise_pair.mpr ?_)).1
  rintro s hs t ht x hsx
  obtain rfl : s = 0 := by simpa using hs
  obtain rfl : t = 2 := by simpa using ht
  exact hTargets x (hWell.attacks_lt hsx).2 hsx

/-- In every run of every enumerator such a sequence is printed exactly if the
semantics asks for it. What happens along other sequences of the framework does not
matter. -/
theorem printed_iff_meant {af : AF} (h : af.WellFormed) {enumerator : Enumerator}
    (hFits : enumerator.Fits af) (run : CorrectRun af enumerator) {sequence : Sequence}
    (hApart : AttacksApart af.Attacks (sequence.map setOf)) : sequence ∈ run.sequences ↔
      (∀ set ∈ sequence, set.Sublist (List.range af.args)) ∧
        sequence.map setOf ∈ enumerator.meant af := by
  rw [run.mem_sequences h, and_iff_right hFits, enumerator.mem_reported_iff h hApart]

/-- The two sources of `overlap` both attack the argument 2, but `0` and `3` have no
target in common. -/
theorem printed_iff_meant_overlap :
    [[0], [3]] ∈ (CorrectRun.ofBruteForce overlap .complete).sequences ↔
      (∀ set ∈ [[0], [3]], set.Sublist (List.range 5)) ∧
        [[0], [3]].map setOf ∈ Enumerator.meant overlap .complete := by
  have hFits : Enumerator.Fits overlap .complete := show 2 * overlap.args < 2 ^ 31 by decide
  apply printed_iff_meant overlap_wellFormed hFits
  have hTargets : ∀ x < 5, overlap.Attacks 0 x → ¬ overlap.Attacks 3 x := by decide
  refine List.pairwise_pair.mpr ?_
  rintro s hs t ht x hsx
  obtain rfl : s = 0 := by simpa using hs
  obtain rfl : t = 3 := by simpa using ht
  exact hTargets x (overlap_wellFormed.attacks_lt hsx).2 hsx

/-- For ES-AD the targets of the last set do not matter. So in any framework the
sequences of one or two sets that it prints are the serialisation sequences of this
length; for the empty sequence see `printed_iff_meant`. -/
theorem printed_iff_serialisation {af : AF} (h : af.WellFormed) (hSmall : 2 * af.args < 2 ^ 31)
    (run : CorrectRun af (.admissible false)) {sequence : Sequence} {set : List Nat}
    (hApart : AttacksApart af.Attacks (sequence.map setOf)) : sequence ++ [set] ∈ run.sequences ↔
      (∀ other ∈ sequence ++ [set], other.Sublist (List.range af.args)) ∧
        IsSerialisation af.Attacks af.arguments ((sequence ++ [set]).map setOf) := by
  refine (run.mem_sequences h).trans (and_congr_right fun _ => (and_iff_right hSmall).trans ?_)
  rw [mem_reported_admissible, List.map_append, List.map_singleton,
    hApart.staleChain_concat_iff (AF.attacks_mem_arguments h)]
  simp

theorem printed_iff_serialisation_overlap :
    [[0]] ++ [[1]] ∈ (CorrectRun.ofBruteForce overlap (.admissible false)).sequences ↔
      (∀ other ∈ [[0]] ++ [[1]], other.Sublist (List.range 5)) ∧
        IsSerialisation overlap.Attacks overlap.arguments (([[0]] ++ [[1]]).map setOf) :=
  printed_iff_serialisation overlap_wellFormed (by decide) _ (List.pairwise_singleton _ _)

end SerialisationSolver
