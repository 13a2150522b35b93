import SerialisationSolver.Argumentation.Admissible

/-! Sets of active arguments that contain the active attackers of their members.
What is admissible inside of such a set is a matter of the set alone. -/
namespace Argumentation

variable {α : Type*} {R : α → α → Prop} {A C S : Set α}

/-- Part of the active arguments that contains all of their active attackers. The
cone of an argument is of this kind, as it follows the attacks backwards until
nothing is new. -/
structure AttackerClosed (R : α → α → Prop) (A C : Set α) : Prop where
  subset : C ⊆ A
  attackers : ∀ a ∈ C, ∀ b ∈ A, R b a → b ∈ C

namespace AttackerClosed

variable (hClosed : AttackerClosed R A C)
include hClosed

/-- Inside of such a part a set is admissible exactly if it is admissible among all
active arguments: the attackers that have to be answered are the same. -/
theorem admissible_iff : Admissible R C S ↔ Admissible R A S ∧ S ⊆ C := by
  constructor
  · intro h
    refine ⟨⟨h.subset.trans hClosed.subset, h.conflictFree, fun a ha b hb hba => ?_⟩, h.subset⟩
    exact h.defended a ha b (hClosed.attackers a (h.subset ha) b hb hba) hba
  · intro h
    obtain ⟨hAdm, hSub⟩ := h
    exact ⟨hSub, hAdm.conflictFree, fun a ha b hb hba => hAdm.defended a ha b
      (hClosed.subset hb) hba⟩

/-- The part of an admissible set that lies inside defends itself, as the defenders
of a member attack an attacker inside and so lie inside themselves. -/
theorem admissible_inter (h : Admissible R A S) : Admissible R A (S ∩ C) where
  subset := fun _ ha => h.subset ha.1
  conflictFree := fun a ha b hb => h.conflictFree a ha.1 b hb.1
  defended := by
    intro a ha b hb hba
    obtain ⟨c, hc, hcb⟩ := h.defended a ha.1 b hb hba
    have hbC : b ∈ C := hClosed.attackers a ha.2 b hb hba
    exact ⟨c, ⟨hc, hClosed.attackers b hbC c (h.subset hc) hcb⟩, hcb⟩

/-- An initial set that meets `C` lies inside, since the part of it inside is
admissible and not empty, and the set is minimal. -/
theorem isInitial_subset (h : IsInitial R A S) (hMeets : (S ∩ C).Nonempty) : S ⊆ C := by
  have hPart := h.eq_of_le ⟨hMeets, hClosed.admissible_inter h.admissible⟩ Set.inter_subset_left
  exact Set.inter_eq_left.mp hPart

/-- Inside, the initial sets are those that meet `C`. A search that is restricted to
a cone misses no initial set that meets the cone, and finds no other ones. -/
theorem isInitial_iff : IsInitial R C S ↔ IsInitial R A S ∧ (S ∩ C).Nonempty := by
  constructor
  · intro h
    obtain ⟨hAdm, hSub⟩ := hClosed.admissible_iff.mp h.admissible
    refine ⟨⟨⟨h.1.1, hAdm⟩, fun T hT hTS => ?_⟩, ?_⟩
    · exact h.2 ⟨hT.1, hClosed.admissible_iff.mpr ⟨hT.2, hTS.trans hSub⟩⟩ hTS
    · rw [Set.inter_eq_left.mpr hSub]
      exact h.1.1
  · intro h
    obtain ⟨hInitial, hMeets⟩ := h
    have hSub := hClosed.isInitial_subset hInitial hMeets
    refine ⟨⟨hInitial.1.1, hClosed.admissible_iff.mpr ⟨hInitial.admissible, hSub⟩⟩,
      fun T hT hTS => ?_⟩
    exact hInitial.2 ⟨hT.1, (hClosed.admissible_iff.mp hT.2).1⟩ hTS

/-- The same members of `C` are accepted by some admissible set. Whether an argument
is accepted is therefore decided by its cone. -/
theorem exists_admissible_iff {a : α} (ha : a ∈ C) :
    (∃ S, Admissible R C S ∧ a ∈ S) ↔ ∃ S, Admissible R A S ∧ a ∈ S := by
  constructor
  · intro hSome
    obtain ⟨S, hS, haS⟩ := hSome
    exact ⟨S, (hClosed.admissible_iff.mp hS).1, haS⟩
  · intro hSome
    obtain ⟨S, hS, haS⟩ := hSome
    have hPart := hClosed.admissible_inter hS
    exact ⟨S ∩ C, hClosed.admissible_iff.mpr ⟨hPart, Set.inter_subset_right⟩, haS, ha⟩

end AttackerClosed

end Argumentation
