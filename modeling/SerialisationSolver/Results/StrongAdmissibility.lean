import SerialisationSolver.Correctness.Answers
import SerialisationSolver.Correctness.Framework
import SerialisationSolver.Argumentation.StrongAdmissibility

/-! What the searches by single unattacked arguments print, and which strongly
admissible sets they find. -/
namespace SerialisationSolver

open Argumentation

/-- Two arguments that attack one argument each and a third one together. The three
attack the last argument. -/
def converging : AF :=
  ⟨6, [[], [], [0], [1], [0, 1], [2, 3, 4]], [[2, 4], [3, 4], [5], [5], [5], []]⟩

theorem converging_wellFormed : converging.WellFormed := by
  have hBuild : AF.build 6 [(0, 2), (1, 3), (0, 4), (1, 4), (2, 5), (3, 5), (4, 5)] =
      .ok converging := by rfl
  exact (AF.build_spec (by decide) hBuild).1

theorem converging_listing : Listing converging.Attacks converging.arguments [0, 1, 5] := by
  have hFirst : ∀ b < 6, converging.Attacks b 0 →
      ∃ c ∈ ([] : List Nat), converging.Attacks c b := by decide
  have hSecond : ∀ b < 6, converging.Attacks b 1 → ∃ c ∈ [0], converging.Attacks c b := by decide
  have hThird : ∀ b < 6, converging.Attacks b 5 → ∃ c ∈ [0, 1], converging.Attacks c b := by decide
  have h0 : Listing converging.Attacks converging.arguments [0] :=
    listing_nil.concat (show 0 < 6 by decide) (by decide) hFirst
  have h1 : Listing converging.Attacks converging.arguments [0, 1] :=
    h0.concat (show 1 < 6 by decide) (by decide) hSecond
  exact h1.concat (show 5 < 6 by decide) (by decide) hThird

/-- Both searches list distinct arguments, each of whose attackers is attacked by an
earlier one. Their members form a strongly admissible set within the grounded
extension. -/
theorem strongAdmissible_sequences {af : AF} (h : af.WellFormed) {isGrounded : Bool}
    (run : CorrectRun af (.strongAdmissible isGrounded)) : ∀ sequence ∈ run.sequences,
      (∃ picks : List Nat, sequence = picks.map ([·]) ∧ picks.Nodup ∧
        ∀ before a later, picks = before ++ a :: later →
          ∀ b, af.Attacks b a → ∃ c ∈ before, af.Attacks c b) ∧
      ConflictFree af.Attacks (unionOf (sequence.map setOf)) ∧
      StronglyAdmissible af.Attacks af.arguments (unionOf (sequence.map setOf)) ∧
      unionOf (sequence.map setOf) ⊆ grounded af.Attacks af.arguments := by
  intro sequence hMem
  obtain ⟨hOrdered, -, hReported⟩ := (run.mem_sequences h).mp hMem
  obtain ⟨hChain, -⟩ := mem_reported_strongAdmissible.mp hReported
  obtain ⟨picks, hPicks⟩ := hChain.exists_singletons
  have hSubset := hChain.subset_grounded
  rw [hPicks] at hChain
  have hListing := hChain.listing
  have hSequence : sequence = picks.map ([·]) := map_setOf_injOn hOrdered
    (singletons_sublist hListing.subset) (hPicks.trans (map_setOf_singletons picks).symm)
  have hUnion : unionOf (sequence.map setOf) = {a | a ∈ picks} := by rw [hPicks, unionOf_singletons]
  refine ⟨⟨picks, hSequence, hListing.nodup, fun before a later hEq b hba => ?_⟩, ?_, ?_, hSubset⟩
  · exact hListing.countered before a later hEq b (h.attacks_lt hba).1 hba
  · rw [hUnion]
    exact hListing.conflictFree
  · rw [hUnion]
    exact hListing.stronglyAdmissible

theorem strongAdmissible_sequences_converging :
    StronglyAdmissible converging.Attacks converging.arguments
      (unionOf ([[0], [1]].map setOf)) := by
  have hAll : Listing converging.Attacks converging.arguments ([0, 1] ++ [5]) := converging_listing
  have hListing := hAll.of_append
  have hUnhidden : Unhidden converging.Attacks [0, 1] := by
    intro before p a later hEq _ _ _ c hc
    have hLength := congrArg List.length hEq
    have hPos := List.length_pos_of_mem hc
    simp at hLength
    omega
  have hRange : ∀ a b, converging.Attacks a b → a ∈ converging.arguments :=
    fun _ _ hAttack => (converging_wellFormed.attacks_lt hAttack).1
  have hMem : [[0], [1]] ∈ (CorrectRun.ofBruteForce converging
      (.strongAdmissible false)).sequences := by
    apply (CorrectRun.mem_sequences _ converging_wellFormed).mpr
    refine ⟨by decide, trivial, ?_⟩
    rw [show [[0], [1]] = [0, 1].map ([·]) from rfl, map_setOf_singletons]
    apply mem_reported_strongAdmissible.mpr
    exact ⟨(unattackedChain_iff hRange).mpr ⟨hListing, hUnhidden⟩, by simp⟩
  exact (strongAdmissible_sequences converging_wellFormed _ _ hMem).2.2.1

/-- Every strongly admissible set is the union of a sequence that the run prints. -/
def FindsStronglyAdmissible {af : AF} (run : CorrectRun af (.strongAdmissible false)) : Prop :=
  ∀ E, StronglyAdmissible af.Attacks af.arguments E →
    ∃ sequence ∈ run.sequences, unionOf (sequence.map setOf) = E

section Found

variable {af : AF} (h : af.WellFormed) (run : CorrectRun af (.strongAdmissible false))
include h

theorem exists_sequence_iff {E : Set Nat} :
    (∃ sequence ∈ run.sequences, unionOf (sequence.map setOf) = E) ↔
      ∃ xs, Listing af.Attacks af.arguments xs ∧ Unhidden af.Attacks xs ∧ {a | a ∈ xs} = E := by
  have hRange : ∀ a b, af.Attacks a b → a ∈ af.arguments :=
    fun _ _ hAttack => (h.attacks_lt hAttack).1
  rw [← exists_unattackedChain_iff hRange]
  constructor
  · intro hFound
    obtain ⟨sequence, hMem, hUnion⟩ := hFound
    obtain ⟨-, -, hReported⟩ := (run.mem_sequences h).mp hMem
    exact ⟨_, (mem_reported_strongAdmissible.mp hReported).1, hUnion⟩
  · intro hFound
    obtain ⟨ls, hChain, hUnion⟩ := hFound
    obtain ⟨sequence, hMem, rfl⟩ :=
      run.exists_sequence h trivial (mem_reported_strongAdmissible.mpr ⟨hChain, by simp⟩)
    exact ⟨sequence, hMem, hUnion⟩

/-- Every strongly admissible set is found exactly if each has a listing in which no
attacker of a member is attacked by its predecessor after an earlier attack. -/
theorem findsStronglyAdmissible_iff : FindsStronglyAdmissible run ↔
    ∀ E, StronglyAdmissible af.Attacks af.arguments E →
      ∃ xs, Listing af.Attacks af.arguments xs ∧ Unhidden af.Attacks xs ∧ {a | a ∈ xs} = E := by
  simp only [FindsStronglyAdmissible, exists_sequence_iff h run]

end Found

theorem findsStronglyAdmissible_harmless :
    FindsStronglyAdmissible (CorrectRun.ofBruteForce harmless (.strongAdmissible false)) := by
  refine (findsStronglyAdmissible_iff harmless_wellFormed _).mpr fun E hE => ?_
  obtain ⟨xs, hListing, hMembers⟩ := (stronglyAdmissible_iff harmless.arguments_finite).mp hE
  exact ⟨xs, hListing, harmless_sources.unhidden xs, hMembers⟩

/-- Whichever of 0 and 1 comes later attacks argument 4 once more, and then the bit
of 4 hides argument 5. -/
theorem converging_not_findsStronglyAdmissible :
    ¬ FindsStronglyAdmissible (CorrectRun.ofBruteForce converging (.strongAdmissible false)) := by
  intro hFinds
  obtain ⟨xs, hListing, hUnhidden, hMembers⟩ :=
    (exists_sequence_iff converging_wellFormed _).mp
      (hFinds _ converging_listing.stronglyAdmissible)
  have hMem : ∀ a, a ∈ xs ↔ a = 0 ∨ a = 1 ∨ a = 5 :=
    fun a => by simpa using Set.ext_iff.mp hMembers a
  obtain ⟨before, later, hEq⟩ := List.append_of_mem ((hMem 5).mpr (by simp))
  have hZero : 0 ∈ before := by
    obtain ⟨c, hc, hAttack⟩ := hListing.countered before 5 later hEq 2 (show 2 < 6 by decide)
      (by decide)
    exact List.mem_singleton.mp hAttack ▸ hc
  have hOne : 1 ∈ before := by
    obtain ⟨c, hc, hAttack⟩ := hListing.countered before 5 later hEq 3 (show 3 < 6 by decide)
      (by decide)
    exact List.mem_singleton.mp hAttack ▸ hc
  have hLast : 5 ∉ before := hListing.notMem_before hEq
  rcases List.eq_nil_or_concat before with rfl | ⟨before, p, rfl⟩
  · exact List.not_mem_nil hZero
  · rw [List.concat_eq_append] at hEq hZero hOne hLast
    have hHidden := hUnhidden before p 5 later
      (by rw [hEq, List.append_assoc, List.singleton_append])
      4 (by decide)
    have hp := (hMem p).mp (by simp [hEq])
    rcases hp with rfl | rfl | rfl
    · exact hHidden (by decide) 1 (by simpa using hOne) (by decide)
    · exact hHidden (by decide) 0 (by simpa using hZero) (by decide)
    · simp at hLast

end SerialisationSolver
