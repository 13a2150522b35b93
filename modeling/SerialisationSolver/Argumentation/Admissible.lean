import Mathlib.Order.Minimal
import Mathlib.Order.Preorder.Finite
import Mathlib.Data.Set.Card

/-! Abstract argumentation over an arbitrary attack relation, restricted to a
set of active arguments. Admissibility is also stated with helpers: arguments
outside the active set whose attacks are counted in defence. -/
namespace Argumentation

variable {α : Type*} (R : α → α → Prop)

/-- No member attacks a member, which rules out members that attack themselves. The
set need not be active for this, so the same notion serves every reduct. -/
def ConflictFree (S : Set α) : Prop := ∀ a ∈ S, ∀ b ∈ S, ¬ R a b

/-- `S` is conflict-free and attacks each active attacker of a member. Attackers
that are not active do not count, so that the notion can be used in a reduct without
restricting the attack relation to it. -/
structure Admissible (A S : Set α) : Prop where
  subset : S ⊆ A
  conflictFree : ConflictFree R S
  defended : ∀ a ∈ S, ∀ b ∈ A, R b a → ∃ c ∈ S, R c b

/-- As `Admissible`, but an active attacker may be attacked by a helper from `G`
instead. Helpers only count in defence: they are neither members nor attackers
themselves. -/
structure AdmissibleWith (A G S : Set α) : Prop where
  subset : S ⊆ A
  conflictFree : ConflictFree R S
  defended : ∀ a ∈ S, ∀ b ∈ A, R b a → (∃ c ∈ S, R c b) ∨ ∃ c ∈ G, R c b

/-- Initial sets: the minimal sets among the non-empty admissible ones. Minimality
is with respect to inclusion, so that two different initial sets never contain each
other. -/
def IsInitial (A S : Set α) : Prop := Minimal (fun T => T.Nonempty ∧ Admissible R A T) S

/-- The minimal non-empty sets where helpers count in defence. With more helpers
more sets are admissible, so that sets which were minimal before need not stay
minimal. -/
def IsInitialWith (A G S : Set α) : Prop :=
  Minimal (fun T => T.Nonempty ∧ AdmissibleWith R A G T) S

/-- The active arguments neither in `S` nor attacked by it. Nothing is asked of `S`,
which may be in conflict with itself or leave the active arguments. -/
def reduct (A S : Set α) : Set α := {a | a ∈ A ∧ a ∉ S ∧ ∀ s ∈ S, ¬ R s a}

/-- An attacker of `S` that is still active after `S` has been taken out, so that no
member attacks it. Admissible sets have none of these. -/
def Unanswered (A S : Set α) (b : α) : Prop := b ∈ reduct R A S ∧ ∃ s ∈ S, R b s

variable {R} {A G S T E : Set α}

@[simp] theorem mem_reduct {a : α} : a ∈ reduct R A S ↔ a ∈ A ∧ a ∉ S ∧ ∀ s ∈ S, ¬ R s a := Iff.rfl

theorem reduct_subset : reduct R A S ⊆ A := fun _ h => h.1

@[simp] theorem reduct_empty : reduct R A ∅ = A := by
  ext a
  simp

/-- Two reducts in a row are the reduct by the union. A sequence of sets can
therefore be judged by its union alone, in whichever order the sets were taken out. -/
theorem reduct_reduct : reduct R (reduct R A S) T = reduct R A (S ∪ T) := by
  ext a
  simp only [mem_reduct, Set.mem_union]
  grind

theorem admissible_empty : Admissible R A ∅ :=
  ⟨Set.empty_subset A, fun _ ha => ha.elim, fun _ ha => ha.elim⟩

/-- Defence by the set is in particular defence by the set or its helpers, so an
admissible set is admissible with any helpers. -/
theorem Admissible.with (h : Admissible R A S) : AdmissibleWith R A G S :=
  ⟨h.subset, h.conflictFree, fun a ha b hb hba => Or.inl (h.defended a ha b hb hba)⟩

/-- Helpers that attack nothing are of no help: every defence is one by the set.
They need not be absent, which is what matters for arguments that became stale. -/
theorem admissibleWith_iff_of_idle (hIdle : ∀ c ∈ G, ∀ b, ¬ R c b) :
    AdmissibleWith R A G S ↔ Admissible R A S := by
  refine ⟨fun h => ⟨h.subset, h.conflictFree, fun a ha b hb hba => ?_⟩, Admissible.with⟩
  rcases h.defended a ha b hb hba with hOwn | hHelp
  · exact hOwn
  · obtain ⟨c, hc, hcb⟩ := hHelp
    exact absurd hcb (hIdle c hc b)

/-- With idle helpers the same sets are admissible, hence also the same ones minimal
among those that are not empty. -/
theorem isInitialWith_iff_of_idle (hIdle : ∀ c ∈ G, ∀ b, ¬ R c b) :
    IsInitialWith R A G S ↔ IsInitial R A S := by
  simp only [IsInitialWith, IsInitial, admissibleWith_iff_of_idle hIdle]

/-- Without helpers only the set itself can defend. This is the case of
`admissibleWith_iff_of_idle` in which no helper is there to attack anything. -/
theorem admissibleWith_empty : AdmissibleWith R A ∅ S ↔ Admissible R A S :=
  admissibleWith_iff_of_idle fun _ hc => hc.elim

theorem isInitialWith_empty : IsInitialWith R A ∅ S ↔ IsInitial R A S :=
  isInitialWith_iff_of_idle fun _ hc => hc.elim

theorem IsInitialWith.nonempty (h : IsInitialWith R A G S) : S.Nonempty := h.1.1

theorem IsInitialWith.admissibleWith (h : IsInitialWith R A G S) : AdmissibleWith R A G S := h.1.2

theorem IsInitial.admissible (h : IsInitial R A S) : Admissible R A S := h.1.2

/-- An admissible set leaves no attacker unanswered, and for sets defended with
helpers this is the only thing admissibility adds. The attacker that a helper
answers is exactly the one that stays active. -/
theorem AdmissibleWith.admissible_iff (h : AdmissibleWith R A G S) :
    Admissible R A S ↔ ∀ b, ¬ Unanswered R A S b := by
  constructor
  · intro hAdm b hOpen
    obtain ⟨hb, s, hs, hbs⟩ := hOpen
    obtain ⟨c, hc, hcb⟩ := hAdm.defended s hs b hb.1 hbs
    exact hb.2.2 c hc hcb
  · intro hNone
    refine ⟨h.subset, h.conflictFree, fun a ha b hb hba => ?_⟩
    by_contra hOpen
    have hNotMem : b ∉ S := fun hbS => h.conflictFree b hbS a ha hba
    exact hNone b ⟨⟨hb, hNotMem, fun c hc hcb => hOpen ⟨c, hc, hcb⟩⟩, a, ha, hba⟩

/-- What an admissible set leaves over after some of its members is admissible in
the reduct by these members, whether or not they are admissible themselves. -/
theorem Admissible.diff (h : Admissible R A E) (hSub : T ⊆ E) :
    Admissible R (reduct R A T) (E \ T) where
  subset := by
    intro a ha
    obtain ⟨haE, haT⟩ := ha
    exact ⟨h.subset haE, haT, fun t ht hta => h.conflictFree t (hSub ht) a haE hta⟩
  conflictFree := fun a ha b hb => h.conflictFree a ha.1 b hb.1
  defended := by
    intro a ha b hb hba
    obtain ⟨c, hc, hcb⟩ := h.defended a ha.1 b hb.1 hba
    exact ⟨c, ⟨hc, fun hcT => hb.2.2 c hcT hcb⟩, hcb⟩

/-- An argument that an admissible set defends but does not contain stays in the
reduct: if the set attacked it, the set would have to attack its own attacker back,
against conflict-freeness. -/
theorem Admissible.mem_reduct_of_defends (h : Admissible R A E) {a : α} (ha : a ∈ A)
    (hDefended : ∀ b ∈ A, R b a → ∃ c ∈ E, R c b) (hNot : a ∉ E) : a ∈ reduct R A E := by
  refine ⟨ha, hNot, fun c hc hca => ?_⟩
  obtain ⟨d, hd, hdc⟩ := hDefended c (h.subset hc) hca
  exact h.conflictFree d hd c hc hdc

/-- Below every non-empty set that is admissible with helpers lies a minimal one.
Finiteness of the active arguments is all that this needs, since the candidates are
subsets of them. -/
theorem exists_isInitialWith (hFinite : A.Finite) (hNonempty : S.Nonempty)
    (h : AdmissibleWith R A G S) : ∃ T ⊆ S, IsInitialWith R A G T := by
  have hAll : {T | T.Nonempty ∧ AdmissibleWith R A G T}.Finite :=
    hFinite.powerset.subset fun T hT => hT.2.subset
  obtain ⟨T, hTS, hMin⟩ := hAll.exists_le_minimal (show S ∈ _ from ⟨hNonempty, h⟩)
  exact ⟨T, hTS, hMin⟩

/-- If helpers never make a difference to a minimal set, the initial sets are the
same. The minimal sets below an admissible one are then admissible too, so that
minimality carries over. -/
theorem isInitialWith_iff_isInitial (hFinite : A.Finite)
    (hAdm : ∀ T, IsInitialWith R A G T → Admissible R A T) :
    IsInitialWith R A G S ↔ IsInitial R A S := by
  constructor
  · intro h
    exact ⟨⟨h.nonempty, hAdm S h⟩, fun T hT hTS => h.2 ⟨hT.1, hT.2.with⟩ hTS⟩
  · intro h
    obtain ⟨T, hTS, hT⟩ := exists_isInitialWith (G := G) hFinite h.1.1 h.admissible.with
    obtain rfl : T = S := hTS.antisymm (h.2 ⟨hT.nonempty, hAdm T hT⟩ hTS)
    exact hT

/-- A single argument whose active attackers are all counter-attacked, by itself or
by a helper, is initial: the only smaller set is empty. -/
theorem isInitialWith_singleton {a : α} (ha : a ∈ A) (hSelf : ¬ R a a)
    (hDefended : ∀ b ∈ A, R b a → R a b ∨ ∃ c ∈ G, R c b) : IsInitialWith R A G {a} := by
  refine ⟨⟨Set.singleton_nonempty a, ?_, ?_, ?_⟩, ?_⟩
  · exact Set.singleton_subset_iff.mpr ha
  · rintro b rfl c rfl
    exact hSelf
  · rintro b rfl c hc hcb
    simpa using hDefended c hc hcb
  · rintro T ⟨⟨t, ht⟩, _⟩ hTa
    rintro b rfl
    exact (Set.mem_singleton_iff.mp (hTa ht)) ▸ ht

end Argumentation
