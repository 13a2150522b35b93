import SerialisationSolver.Correctness.Reduct
import SerialisationSolver.Correctness.Framework
import SerialisationSolver.Argumentation.Coattackers

/-! Chains of single arguments, decided on the bitsets that `get_reduct`
computes, and a framework in which such a chain relies on a stale argument. -/
namespace SerialisationSolver

open Argumentation

/-- The argument is active, does not attack itself, and each of its active attackers
is attacked by itself or by a stale argument. Then it forms an initial set in the
sense of the search. -/
def Pickable (af : AF) (active : IterableBitSet) (a : Nat) : Prop :=
  a ∈ active.array ∧ ¬ af.Attacks a a ∧ ∀ b ∈ active.array, af.Attacks b a →
    af.Attacks a b ∨ ∃ c ∈ af.attackersOf b, active.test c = true ∧ c ∉ active.array

instance (af : AF) (active : IterableBitSet) (a : Nat) : Decidable (Pickable af active a) :=
  inferInstanceAs (Decidable (_ ∧ _ ∧ _))

/-- The arguments can be picked one after the other, each in the reduct that
`get_reduct` computes from those before it. -/
def Picks (af : AF) : IterableBitSet → List Nat → Prop
  | _, [] => True
  | active, a :: picks => Pickable af active a ∧ Picks af (getReduct af active [a]) picks

/-- Whether a list can be picked is computed along the list, so that concrete chains
can be checked by evaluation. -/
instance Picks.decidable (af : AF) : ∀ active picks, Decidable (Picks af active picks)
  | _, [] => inferInstanceAs (Decidable True)
  | active, a :: picks =>
      have := Picks.decidable af (getReduct af active [a]) picks
      inferInstanceAs (Decidable (_ ∧ _))

/-- What is left after the picks, with the bits as they are in the program. -/
def afterPicks (af : AF) (active : IterableBitSet) (picks : List Nat) : IterableBitSet :=
  picks.foldl (fun active a => getReduct af active [a]) active

theorem Pickable.isInitialWith {af : AF} {active : IterableBitSet} {a : Nat}
    (h : Pickable af active a) :
    IsInitialWith af.Attacks active.actives active.stales {a} :=
  isInitialWith_singleton h.1 h.2.1 fun b hb hba =>
    (h.2.2 b hb hba).imp_right fun ⟨c, hcb, hc⟩ => ⟨c, hc, hcb⟩

/-- Picks are a chain of the search, and the bits at their end are those of the
frame. By induction on the list. -/
theorem Picks.chain {af : AF} (h : af.WellFormed) {picks : List Nat} {active : IterableBitSet}
    (hActive : active.Valid af) (hPicks : Picks af active picks) :
    (staleTree af.Attacks fun _ => True).Chain active.frame (picks.map ({·})) ∧
      (picks.map ({·})).foldl (Frame.step af.Attacks) active.frame =
        (afterPicks af active picks).frame := by
  induction picks generalizing active with
  | nil => exact ⟨trivial, rfl⟩
  | cons a picks ih =>
      have hSet : ∀ b ∈ [a], b ∈ active.array := by
        intro b hb
        rw [List.mem_singleton.mp hb]
        exact hPicks.1.1
      obtain ⟨hChain, hAfter⟩ := ih (getReduct_valid h hActive hSet) hPicks.2
      have hFrame := getReduct_frame h hActive hSet
      rw [setOf_singleton] at hFrame
      rw [hFrame] at hChain hAfter
      exact ⟨⟨hPicks.1.isInitialWith, hChain⟩, hAfter⟩

section Full

variable {af : AF} (h : af.WellFormed) {picks : List Nat} (hPicks : Picks af (.full af.args) picks)
include h hPicks

theorem Picks.staleChain : StaleChain af.Attacks af.arguments (picks.map ({·})) := by
  have hChain := (hPicks.chain h (full_valid af)).1
  rwa [full_frame] at hChain

/-- The frame after the picks is computed by `get_reduct`, so that it can be
evaluated in a concrete framework. -/
theorem Picks.frameAfter : frameAfter af.Attacks af.arguments (picks.map ({·})) =
    (afterPicks af (.full af.args) picks).frame := by
  have hAfter := (hPicks.chain h (full_valid af)).2
  rwa [full_frame] at hAfter

end Full

/-- Two arguments that attack the same argument, and a chain of attacks below it.
After the first two picks the bit of 2 is set although 2 is out. -/
def overlap : AF := ⟨5, [[], [], [0, 1], [2], [3]], [[2], [2], [3], [4], []]⟩

theorem overlap_wellFormed : overlap.WellFormed := by
  have hBuild : AF.build 5 [(0, 2), (1, 2), (2, 3), (3, 4)] = .ok overlap := by rfl
  exact (AF.build_spec (by decide) hBuild).1

/-- What is left of it after two picks: the bit of an inactive attacker is set. This
is a state that the program comes to. -/
def overlapRest : IterableBitSet := ⟨[3, 4], [0, 0, 1, 1, 1]⟩

theorem overlapRest_valid : overlapRest.Valid overlap := ⟨by decide, by decide, by decide⟩

/-- Argument 2 is out when 1 attacks it, and its bit then speaks for argument 4,
which no admissible set contains without an attack on 3. -/
theorem overlap_picks : Picks overlap (.full 5) [0, 1, 4, 3] := by decide

/-- All arguments are picked or attacked at the end of these picks, so that the
stable search reports them. -/
theorem overlap_end :
    (frameAfter overlap.Attacks overlap.arguments [{0}, {1}, {4}, {3}]).active = ∅ := by
  have hAfter : (afterPicks overlap (.full 5) [0, 1, 4, 3]).array = [] := by decide
  apply (congrArg Frame.active (overlap_picks.frameAfter overlap_wellFormed)).trans
  ext a
  simp [IterableBitSet.frame, show overlap.args = 5 from rfl, hAfter]

/-- After the first two picks two arguments are active and one is stale. -/
theorem overlap_frame : frameAfter overlap.Attacks overlap.arguments [{0}, {1}] =
    ⟨{3, 4}, {2}⟩ := by
  have hPicks : Picks overlap (.full 5) [0, 1] := by decide
  have hAfter : afterPicks overlap (.full 5) [0, 1] = ⟨[3, 4], [0, 0, 1, 1, 1]⟩ := by decide
  apply (hPicks.frameAfter overlap_wellFormed).trans
  rw [show overlap.args = 5 from rfl, hAfter]
  ext a
  · simp [IterableBitSet.frame]
  · simp only [IterableBitSet.frame, IterableBitSet.mem_stales, Set.mem_singleton_iff]
    cases lt_or_ge a 5 with
    | inl hLess =>
        revert a
        decide
    | inr hLarge =>
        have hOut : IterableBitSet.test ⟨[3, 4], [0, 0, 1, 1, 1]⟩ a = false := by
          simp [IterableBitSet.test, hLarge]
        simp only [hOut, Bool.false_eq_true, false_and, false_iff]
        omega

/-- No active argument looks unattacked, because the stale argument counts as an
attacker, -/
theorem overlap_attacked : ∀ a ∈ (frameAfter overlap.Attacks overlap.arguments [{0}, {1}]).active,
    ¬ (frameAfter overlap.Attacks overlap.arguments [{0}, {1}]).Unattacked overlap.Attacks a := by
  rw [overlap_frame]
  rintro a (rfl | rfl) hFree
  · exact hFree 2 (Or.inr rfl) (by decide)
  · exact hFree 3 (Or.inl (Or.inl rfl)) (by decide)

/-- although the only attacker of argument 3 is out. -/
theorem overlap_free : ∃ a ∈ (frameAfter overlap.Attacks overlap.arguments [{0}, {1}]).active,
    ∀ b ∈ (frameAfter overlap.Attacks overlap.arguments [{0}, {1}]).active,
      ¬ overlap.Attacks b a := by
  rw [overlap_frame]
  refine ⟨3, Or.inl rfl, ?_⟩
  rintro b (rfl | rfl)
  · decide
  · decide

/-- Argument 3 still attacks argument 4 when 4 is picked, and no member of the set
attacks it back. -/
theorem overlap_unanswered : Unanswered overlap.Attacks
    (reduct overlap.Attacks overlap.arguments (unionOf [{0}, {1}])) {4} 3 := by
  rw [← frameAfter_active, overlap_frame]
  refine ⟨⟨by simp, by simp, ?_⟩, 4, rfl, by decide⟩
  rintro s rfl
  decide

/-- Argument 3 does not even attack itself later, so that the attack on 4 stays
unanswered to the end. -/
theorem overlap_not_answered :
    ¬ Answered overlap.Attacks overlap.arguments [{0}, {1}, {4}, {3}] := by
  intro hAnswered
  obtain ⟨T, hT, c, hc, hAttack⟩ := hAnswered [{0}, {1}] {4} [{3}] rfl 3 overlap_unanswered
  obtain rfl := List.mem_singleton.mp hT
  obtain rfl := Set.mem_singleton_iff.mp hc
  exact absurd hAttack (by decide)

/-- The same two arguments attack a third one, but that one attacks nothing, and
argument 3 attacks argument 4. The bit of 2 is set after the picks 0 and 1 here as
well, and it misleads no search. -/
def harmless : AF := ⟨5, [[], [], [0, 1], [], [3]], [[2], [2], [], [4], []]⟩

theorem harmless_wellFormed : harmless.WellFormed := by
  have hBuild : AF.build 5 [(0, 2), (1, 2), (3, 4)] = .ok harmless := by rfl
  exact (AF.build_spec (by decide) hBuild).1

example : afterPicks harmless (.full 5) [0, 1] = ⟨[3, 4], [0, 0, 1, 1, 1]⟩ := by decide

/-- No attacker is attacked in it, so that stale arguments, which are attacked,
attack nothing. -/
theorem harmless_sources : OnlySourcesAttack harmless.Attacks := by
  have hNone : ∀ b < 5, ∀ a ∈ harmless.attackersOf b, harmless.attackersOf a = [] := by decide
  intro a b c hAttack hBack
  have hTarget := (harmless_wellFormed.attacks_lt hAttack).2
  rw [AF.Attacks, hNone b hTarget a hAttack] at hBack
  exact List.not_mem_nil hBack

end SerialisationSolver
