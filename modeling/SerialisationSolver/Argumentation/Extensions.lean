import SerialisationSolver.Argumentation.Chain
import Mathlib.Order.CompletePartialOrder
import Mathlib.Order.FixedPoints

/-! Extensions, and what chains of picked sets say about their unions. Each
characterisation is an equivalence: the union of a chain is an extension of the
kind in question exactly if the chain answers the attackers it left behind. -/
namespace Argumentation

variable {α : Type*} (R : α → α → Prop)

/-- Admissible, and containing every argument it defends. The condition on the
defended arguments is about active ones only. -/
def Complete (A E : Set α) : Prop :=
  Admissible R A E ∧ ∀ a ∈ A, (∀ b ∈ A, R b a → ∃ c ∈ E, R c b) → a ∈ E

/-- Conflict-free, and attacking everything outside. A framework need not have such
a set, so nothing below claims that one exists. -/
def Stable (A E : Set α) : Prop :=
  E ⊆ A ∧ ConflictFree R E ∧ ∀ a ∈ A, a ∉ E → ∃ c ∈ E, R c a

/-- A maximal admissible set with respect to inclusion. There is always at least
one, and in general there are several. -/
def Preferred (A E : Set α) : Prop := Maximal (Admissible R A) E

/-- The arguments a set defends, as a monotone function of the set. Its fixed points
that are free of conflicts are the complete extensions. -/
def characteristic (A : Set α) : Set α →o Set α where
  toFun E := {a | a ∈ A ∧ ∀ b ∈ A, R b a → ∃ c ∈ E, R c b}
  monotone' := by
    intro E E' hSub a ha
    obtain ⟨ha, hDefended⟩ := ha
    refine ⟨ha, fun b hb hba => ?_⟩
    obtain ⟨c, hc, hcb⟩ := hDefended b hb hba
    exact ⟨c, hSub hc, hcb⟩

/-- The grounded extension: the least fixed point of `characteristic`. It is defined
by the lattice of all sets and not by any iteration. -/
def grounded (A : Set α) : Set α := OrderHom.lfp (characteristic R A)

variable {R} {A E S : Set α} {ls : List (Set α)}

/-- A stable extension is admissible: an attacker of a member is not a member, so it
is attacked. -/
theorem Stable.admissible (h : Stable R A E) : Admissible R A E := by
  refine ⟨h.1, h.2.1, fun a ha b hb hba => ?_⟩
  exact h.2.2 b hb (fun hbE => h.2.1 b hbE a ha hba)

/-- Over finitely many arguments some set is preferred, since the empty set is
admissible and there are finitely many sets above it. -/
theorem exists_preferred (hFinite : A.Finite) : ∃ E, Preferred R A E := by
  have hAll : {E | Admissible R A E}.Finite := hFinite.powerset.subset fun E hE => hE.subset
  obtain ⟨E, -, hE⟩ := hAll.exists_le_maximal (show ∅ ∈ _ from admissible_empty)
  exact ⟨E, hE⟩

/-- Everything still active was neither picked nor attacked by anything that was
picked, whatever the order of the picks. -/
theorem mem_frameAfter_active {a : α} :
    a ∈ (frameAfter R A ls).active ↔ a ∈ A ∧ a ∉ unionOf ls ∧ ∀ s ∈ unionOf ls, ¬ R s a := by
  rw [frameAfter_active, mem_reduct]

/-- A stable union leaves nothing active, since it contains or attacks every
argument. -/
theorem Stable.frameAfter_active_eq_empty (h : Stable R A (unionOf ls)) :
    (frameAfter R A ls).active = ∅ := by
  ext a
  simp only [mem_frameAfter_active, Set.mem_empty_iff_false, iff_false]
  intro ha
  obtain ⟨ha, hNot, hFree⟩ := ha
  obtain ⟨c, hc, hca⟩ := h.2.2 a ha hNot
  exact hFree c hc hca

/-- A chain that exhausts the arguments attacks everything it did not pick, so that
its union is stable exactly if it is admissible. -/
theorem StaleChain.stable_iff (h : StaleChain R A ls) (hEnd : (frameAfter R A ls).active = ∅) :
    Stable R A (unionOf ls) ↔ Answered R A ls := by
  refine ⟨fun hStable => h.admissible_iff.mp hStable.admissible, fun hAnswered => ?_⟩
  have hAdm := h.admissible_iff.mpr hAnswered
  refine ⟨hAdm.subset, hAdm.conflictFree, fun a ha hNot => ?_⟩
  by_contra hFree
  have hActive : a ∈ (frameAfter R A ls).active :=
    mem_frameAfter_active.mpr ⟨ha, hNot, fun s hs hsa => hFree ⟨s, hs, hsa⟩⟩
  simp [hEnd] at hActive

/-- An active argument without active attackers is defended by the union: its
attackers are out, hence picked or attacked. If the union contains what it defends,
then no active argument is like that. -/
theorem exists_active_attacker (hFixed : ∀ a ∈ A,
      (∀ b ∈ A, R b a → ∃ c ∈ unionOf ls, R c b) → a ∈ unionOf ls)
    {a : α} (ha : a ∈ (frameAfter R A ls).active) : ∃ b ∈ (frameAfter R A ls).active, R b a := by
  obtain ⟨haA, hNot, hFree⟩ := mem_frameAfter_active.mp ha
  by_contra hNone
  refine hNot (hFixed a haA fun b hb hba => ?_)
  by_contra hOpen
  refine hNone ⟨b, mem_frameAfter_active.mpr ⟨hb, fun hbU => hFree b hbU hba, ?_⟩, hba⟩
  exact fun c hc hcb => hOpen ⟨c, hc, hcb⟩

/-- If every active argument has an active attacker, all that an admissible union
defends is in it. What it defends and does not contain is active, with attackers
that are not. -/
theorem mem_unionOf_of_defended (hAdm : Admissible R A (unionOf ls))
    (hAttacked : ∀ a ∈ (frameAfter R A ls).active, ∃ b ∈ (frameAfter R A ls).active, R b a)
    {a : α} (ha : a ∈ A) (hDefended : ∀ b ∈ A, R b a → ∃ c ∈ unionOf ls, R c b) :
    a ∈ unionOf ls := by
  by_contra hNot
  have hActive : a ∈ (frameAfter R A ls).active := by
    rw [frameAfter_active]
    exact hAdm.mem_reduct_of_defends ha hDefended hNot
  obtain ⟨b, hb, hba⟩ := hAttacked a hActive
  obtain ⟨hbA, _, hFree⟩ := mem_frameAfter_active.mp hb
  obtain ⟨c, hc, hcb⟩ := hDefended b hbA hba
  exact hFree c hc hcb

/-- The union of a chain is complete exactly if the chain answers all attackers and
every active argument has an active attacker at its end. -/
theorem StaleChain.complete_iff (h : StaleChain R A ls) : Complete R A (unionOf ls) ↔
    Answered R A ls ∧
      ∀ a ∈ (frameAfter R A ls).active, ∃ b ∈ (frameAfter R A ls).active, R b a := by
  constructor
  · intro hComplete
    obtain ⟨hAdm, hFixed⟩ := hComplete
    exact ⟨h.admissible_iff.mp hAdm, fun a ha => exists_active_attacker hFixed ha⟩
  · intro hBoth
    obtain ⟨hAnswered, hAttacked⟩ := hBoth
    have hAdm := h.admissible_iff.mpr hAnswered
    exact ⟨hAdm, fun a ha hDefended => mem_unionOf_of_defended hAdm hAttacked ha hDefended⟩

/-- Picking a non-empty set of active arguments leaves fewer of them. This is the
measure by which the searches come to an end. -/
theorem ncard_reduct_lt (hFinite : A.Finite) (hNonempty : S.Nonempty) (hSub : S ⊆ A) :
    (reduct R A S).ncard < A.ncard := by
  refine Set.ncard_lt_ncard ⟨reduct_subset, fun hAll => ?_⟩ hFinite
  obtain ⟨s, hs⟩ := hNonempty
  exact (hAll (hSub hs)).2.1 hs

/-- Chains over finitely many arguments extend to a frame that offers nothing,
whatever sets are offered as long as they are non-empty and active. By strong
induction on the number of active arguments. -/
theorem exists_chain_to_leaf {T : SearchTree (Frame α) (Set α)} (hNext : T.next = Frame.step R)
    (hKid : ∀ F S, T.kid F S → S.Nonempty ∧ S ⊆ F.active) (F : Frame α)
    (hFinite : F.active.Finite) :
    ∃ ls, T.Chain F ls ∧ T.Leaf (T.after F ls) := by
  refine SearchTree.exists_chain_to_leaf (fun F => F.active.Finite) (fun F => F.active.ncard)
    ?_ F hFinite
  intro F S hF hS
  obtain ⟨hNonempty, hSub⟩ := hKid F S hS
  rw [hNext]
  exact ⟨hF.subset reduct_subset, ncard_reduct_lt hF hNonempty hSub⟩

/-- Nothing can be added to an admissible union when no set is offered: what a
larger admissible set has in addition is admissible in the reduct, and a minimal set
below it would be offered. -/
theorem StaleChain.preferred_of_leaf (h : StaleChain R A ls) (hFinite : A.Finite)
    (hAnswered : Answered R A ls)
    (hLeaf : ∀ S, ¬ IsInitialWith R (frameAfter R A ls).active (frameAfter R A ls).stale S) :
    Preferred R A (unionOf ls) := by
  refine ⟨h.admissible_iff.mpr hAnswered, fun E hE hSub => ?_⟩
  by_contra hMore
  have hRest := (hE.diff hSub).with (G := (frameAfter R A ls).stale)
  rw [← frameAfter_active] at hRest
  have hActive : (frameAfter R A ls).active.Finite := by
    rw [frameAfter_active]
    exact hFinite.subset reduct_subset
  obtain ⟨S, _, hS⟩ := exists_isInitialWith hActive (Set.sdiff_nonempty.mpr hMore) hRest
  exact hLeaf S hS

/-- Serialisation sequences leave nothing unanswered, since each set is admissible
in the reduct by those before it. -/
theorem IsSerialisation.not_unanswered (h : IsSerialisation R A ls) {before later : List (Set α)}
    (hEq : ls = before ++ S :: later) (b : α) : ¬ Unanswered R (reduct R A (unionOf before)) S b :=
  let hAdm := (h before S later hEq).admissible
  (AdmissibleWith.admissible_iff (hAdm.with (G := ∅))).mp hAdm b

/-- Arguments picked one by one, each without active attackers, are grounded. The
attackers of each are attacked by members that were picked before, which are
grounded by induction. -/
theorem unionOf_subset_grounded (hPick : ∀ before S later, ls = before ++ S :: later →
      ∀ a ∈ S, a ∈ reduct R A (unionOf before) ∧ ∀ b ∈ reduct R A (unionOf before), ¬ R b a) :
    unionOf ls ⊆ grounded R A := by
  induction ls using List.reverseRecOn with
  | nil => simp
  | append_singleton ls S ih =>
      have hBefore : unionOf ls ⊆ grounded R A := by
        refine ih fun before T later hEq => hPick before T (later ++ [S]) ?_
        rw [hEq, List.append_assoc, List.cons_append]
      rw [unionOf_append, Set.union_subset_iff]
      refine ⟨hBefore, ?_⟩
      intro a ha
      obtain ⟨T, hT, haT⟩ := ha
      obtain rfl := List.mem_singleton.mp hT
      obtain ⟨ha, hFree⟩ := hPick ls T [] rfl a haT
      rw [grounded, ← OrderHom.map_lfp]
      refine ⟨ha.1, fun b hb hba => ?_⟩
      by_contra hNone
      refine hFree b ⟨hb, fun hbU => ha.2.2 b hbU hba, fun c hc hcb => ?_⟩ hba
      exact hNone ⟨c, hBefore hc, hcb⟩

/-- If every active argument has an active attacker, an admissible union contains
the grounded extension, because it is then closed under defence. -/
theorem grounded_subset_unionOf (hAdm : Admissible R A (unionOf ls))
    (hAttacked : ∀ a ∈ (frameAfter R A ls).active, ∃ b ∈ (frameAfter R A ls).active, R b a) :
    grounded R A ⊆ unionOf ls :=
  OrderHom.lfp_le _ fun _ h => mem_unionOf_of_defended hAdm hAttacked h.1 h.2

/-- The grounded extension contains every argument it defends, as it is a fixed
point. -/
theorem mem_grounded_of_defended {a : α} (ha : a ∈ A)
    (hDefended : ∀ b ∈ A, R b a → ∃ c ∈ grounded R A, R c b) : a ∈ grounded R A := by
  rw [grounded, ← OrderHom.map_lfp]
  exact ⟨ha, hDefended⟩

end Argumentation
