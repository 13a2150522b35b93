import SerialisationSolver.Argumentation.Apart

/-! Attack relations on which the searches report what they are meant to report.
If two attackers of one argument are always in conflict, no sequence attacks an
argument twice, so that nothing becomes stale. If all attacks are mutual, a set
answers its attackers itself, so that helpers play no part. If only arguments without
attackers attack, stale arguments attack nothing and are helpers in vain. -/
namespace Argumentation

variable {α : Type*} {R : α → α → Prop} {A E S : Set α} {ls : List (Set α)}

/-- Of two attackers of one argument, one attacks the other. A sequence of sets in
which no conflict occurs can then not attack an argument twice. -/
def CoattackersConflict (R : α → α → Prop) : Prop := ∀ x y c, R x c → R y c → x = y ∨ R x y ∨ R y x

section Coattackers

variable (hConflict : CoattackersConflict R)
include hConflict

/-- What is active after an admissible set attacks nothing that the set attacks, as
the two attackers would be in conflict with each other. -/
theorem Admissible.not_coattacks (h : Admissible R A E) {s u x : α} (hs : s ∈ reduct R A E)
    (hu : u ∈ E) (hux : R u x) : ¬ R s x := by
  intro hsx
  rcases hConflict u s x hux hsx with rfl | hus | hsu
  · exact hs.2.1 hu
  · exact hs.2.2 u hu hus
  · exact h.not_attacks_of_mem_reduct hs hu hsu

/-- In a listing no argument is attacked twice, since its members are free of
conflicts and two attackers of an argument are not. -/
theorem Listing.attacksApart {xs : List α} (h : Listing R A xs) :
    AttacksApart R (xs.map ({·})) := by
  refine List.pairwise_map.mpr (h.nodup.imp_of_mem fun {a b} ha hb hNe => ?_)
  rintro s rfl t rfl x hsx htx
  rcases hConflict s t x hsx htx with hSame | hst | hts
  · exact hNe hSame
  · exact h.conflictFree s ha t hb hst
  · exact h.conflictFree t hb s ha hts

variable (hRange : ∀ a b, R a b → b ∈ A)
include hRange

/-- A serialisation sequence attacks apart. By induction on the last set: the union
of the others is admissible, so that what is left does not attack what they attack. -/
theorem IsSerialisation.attacksApart (h : IsSerialisation R A ls) : AttacksApart R ls := by
  induction ls using List.reverseRecOn with
  | nil => exact List.Pairwise.nil
  | append_singleton ls S ih =>
      obtain ⟨hBefore, hLast⟩ := isSerialisation_concat.mp h
      have hApart := ih hBefore
      have hAdm := hBefore.admissible_unionOf ((hApart.staleChain_iff hRange).mpr hBefore)
      refine List.pairwise_append.mpr ⟨hApart, List.pairwise_singleton _ _, ?_⟩
      intro T hT S' hS' t ht s hs x htx
      rw [List.mem_singleton.mp hS'] at hs
      exact hAdm.not_coattacks hConflict (hLast.admissible.subset hs) ⟨T, hT, ht⟩ htx

/-- The chains of the search attack apart as well. As long as they do they are
serialisation sequences, so that the argument for these applies to the next set. -/
theorem StaleChain.attacksApart (h : StaleChain R A ls) : AttacksApart R ls := by
  induction ls using List.reverseRecOn with
  | nil => exact List.Pairwise.nil
  | append_singleton ls S ih =>
      have hSerialisation := ((ih h.of_append).staleChain_concat_iff hRange).mp h
      exact hSerialisation.attacksApart hConflict hRange

end Coattackers

/-- No set of a chain leaves an attacker unanswered. This is weaker than attacking
apart: arguments may become stale as long as no set needs them in defence. -/
def LeavesNoneOpen (R : α → α → Prop) (A : Set α) : Prop :=
  ∀ ls S, StaleChain R A (ls ++ [S]) → ∀ b, ¬ Unanswered R (reduct R A (unionOf ls)) S b

/-- Where no set leaves anything open there is nothing that later sets would have to
answer. -/
theorem LeavesNoneOpen.answered (hNone : LeavesNoneOpen R A) (h : StaleChain R A ls) :
    Answered R A ls := by
  rintro before S later rfl b hOpen
  rw [List.append_cons] at h
  exact absurd hOpen (hNone before S h.of_append b)

/-- A set that attacks whatever attacks it leaves nothing unanswered. Where all
attacks are mutual this is every set, with or without helpers. -/
theorem leavesNoneOpen_of_symmetric (hSymmetric : ∀ a b, R a b → R b a) : LeavesNoneOpen R A := by
  intro ls S _ b hOpen
  obtain ⟨hb, s, hs, hbs⟩ := hOpen
  exact hb.2.2 s hs (hSymmetric b s hbs)

/-- What attacks is not attacked itself. Arguments can become stale all the same,
when two sets attack them, but then they attack nothing. -/
def OnlySourcesAttack (R : α → α → Prop) : Prop := ∀ a b c, R a b → ¬ R c a

/-- A stale argument is attacked by the last set of the sequence. Before the first
set nothing is stale, so there is a last set. -/
theorem exists_attacker_of_stale {x : α} (hx : x ∈ (frameAfter R A ls).stale) : ∃ s, R s x := by
  induction ls using List.reverseRecOn with
  | nil => exact hx.elim
  | append_singleton ls S _ =>
      rw [frameAfter_concat] at hx
      obtain ⟨-, s, -, hsx⟩ := hx
      exact ⟨s, hsx⟩

section Sources

variable (hSources : OnlySourcesAttack R)
include hSources

/-- Stale arguments are attacked, so that they attack nothing and are idle helpers
in every frame of the search. -/
theorem OnlySourcesAttack.idle : ∀ b ∈ (frameAfter R A ls).stale, ∀ a, ¬ R b a := by
  intro b hb a hba
  obtain ⟨s, hsb⟩ := exists_attacker_of_stale hb
  exact hSources b a s hba hsb

/-- An attacker without attackers cannot be answered by anybody, so that no set is
picked that an active argument attacks, and those that are picked leave nothing
open. -/
theorem OnlySourcesAttack.leavesNoneOpen : LeavesNoneOpen R A := by
  intro ls S hChain b hOpen
  obtain ⟨-, hLast⟩ := (staleChain_concat S).mp hChain
  rw [frameAfter_active] at hLast
  have hAdmissible := (admissibleWith_iff_of_idle hSources.idle).mp hLast.admissibleWith
  exact (hLast.admissibleWith.admissible_iff.mp hAdmissible) b hOpen

/-- The chains of the search answer all attackers, as none of their sets leaves one
unanswered. -/
theorem OnlySourcesAttack.answered (h : StaleChain R A ls) : Answered R A ls :=
  hSources.leavesNoneOpen.answered h

/-- Nothing attacks an attacker, so that no member of a list hides another one by
attacking its attackers. -/
theorem OnlySourcesAttack.unhidden (xs : List α) : Unhidden R xs := by
  intro before p a later _ b hba hpb
  exact absurd hpb (hSources b a p hba)

end Sources

end Argumentation
