import SerialisationSolver.Argumentation.Extensions

/-! The search trees of the enumerators. All of them start from frames, count
stale arguments as helpers, and differ in the labels they offer and the frames
they report. -/
namespace Argumentation

variable {α : Type*} (R : α → α → Prop)

/-- The argument is attacked by nothing that is active or stale. Stale attackers
count, as the source looks for their bits in the array of active arguments. -/
def Frame.Unattacked (F : Frame α) (a : α) : Prop := ∀ b, b ∈ F.active ∨ b ∈ F.stale → ¬ R b a

/-- Nothing can be picked any more: no set of active arguments is initial, even with
stale arguments as helpers. -/
def Frame.Exhausted (F : Frame α) : Prop := ∀ S, ¬ IsInitialWith R F.active F.stale S

/-- No set that could be picked instead attacks this one. Both the set and those
that attack it are judged with stale arguments as helpers. -/
def Frame.Unchallenged (F : Frame α) (S : Set α) : Prop :=
  ∀ T, IsInitialWith R F.active F.stale T → ∀ t ∈ T, ∀ s ∈ S, ¬ R t s

/-- All chains of initial sets, or only those that cannot be prolonged: the searches
for admissible and for preferred sequences. -/
def admissibleTree (preferred : Prop) : SearchTree (Frame α) (Set α) :=
  staleTree R fun F => preferred → F.Exhausted R

/-- Chains after which no active argument is unattacked. They are followed beyond
the reported ones, since a longer chain may be complete again. -/
def completeTree : SearchTree (Frame α) (Set α) :=
  staleTree R fun F => ∀ a ∈ F.active, ¬ F.Unattacked R a

/-- Chains after which nothing is active. These cannot be prolonged, as there is
nothing left to pick. -/
def stableTree : SearchTree (Frame α) (Set α) := staleTree R fun F => F.active = ∅

/-- Chains of single unattacked arguments: all of them, as strongly admissible
sequences, or those that stop when there is none left. -/
def unattackedTree (grounded : Prop) : SearchTree (Frame α) (Set α) where
  kid F S := ∃ a ∈ F.active, F.Unattacked R a ∧ S = {a}
  next := Frame.step R
  reports F := grounded → ∀ a ∈ F.active, ¬ F.Unattacked R a

/-- Chains of unchallenged initial sets, either all of them or those which no
unchallenged set prolongs. -/
def unchallengedTree (maximal : Prop) : SearchTree (Frame α) (Set α) where
  kid F S := IsInitialWith R F.active F.stale S ∧ F.Unchallenged R S
  next := Frame.step R
  reports F := maximal → ∀ S, ¬ (IsInitialWith R F.active F.stale S ∧ F.Unchallenged R S)

/-- Chains of initial sets that end with the first set that contains the given
argument, and are given up once a set attacks it. The state remembers the last set
beside the frame. -/
def acceptanceTree (argument : α) : SearchTree (Frame α × Set α) (Set α) where
  kid s S := argument ∉ s.2 ∧ (∀ b ∈ s.2, ¬ R b argument) ∧ IsInitialWith R s.1.active s.1.stale S
  next s S := (s.1.step R S, S)
  reports s := argument ∈ s.2

variable {R} {F : Frame α}

/-- An unattacked argument forms an initial set, as nothing active attacks it,
itself included. -/
theorem Frame.Unattacked.isInitialWith {a : α} (h : F.Unattacked R a) (ha : a ∈ F.active) :
    IsInitialWith R F.active F.stale {a} :=
  isInitialWith_singleton ha (h a (Or.inl ha)) fun b hb hba => absurd hba (h b (Or.inl hb))

section Reported

variable {A : Set α} {ls : List (Set α)}

/-- A search by initial sets reports the chains whose last frame it reports; nothing
is cut off before. -/
theorem mem_reported_staleTree {reports : Frame α → Prop} :
    ls ∈ (staleTree R reports).Reported ⟨A, ∅⟩ ↔ StaleChain R A ls ∧
      reports (frameAfter R A ls) := by
  have hChain : (staleTree R reports).Chain ⟨A, ∅⟩ ls ↔ StaleChain R A ls :=
    SearchTree.chain_congr (T := staleTree R reports) (U := staleTree R fun _ => True) rfl
      (fun _ _ _ => Iff.rfl) ls
  exact and_congr_left fun _ => hChain

/-- Every chain of initial sets can be prolonged until nothing can be picked,
because the number of active arguments goes down. -/
theorem exists_exhausted (hFinite : A.Finite) (hChain : StaleChain R A ls) :
    ∃ ms, StaleChain R A (ls ++ ms) ∧ (frameAfter R A (ls ++ ms)).Exhausted R := by
  have hActive : (frameAfter R A ls).active.Finite := by
    rw [frameAfter_active]
    exact hFinite.subset reduct_subset
  obtain ⟨ms, hMs, hLeaf⟩ := exists_chain_to_leaf (T := staleTree R fun _ => True) rfl
    (fun F S hS => ⟨hS.nonempty, hS.admissibleWith.subset⟩) (frameAfter R A ls) hActive
  refine ⟨ms, (SearchTree.chain_append _ _ _ _).mpr ⟨hChain, hMs⟩, ?_⟩
  have hAfter : frameAfter R A (ls ++ ms) = (staleTree R fun _ => True).after
      (frameAfter R A ls) ms :=
    List.foldl_append
  rw [hAfter]
  exact hLeaf

/-- The chains are the serialisation sequences exactly if no set of a chain leaves
an attacker unanswered. Stale arguments as such do no harm; only those that are
needed in defence do. -/
theorem staleChain_iff_isSerialisation (hFinite : A.Finite) :
    (∀ ls, StaleChain R A ls ↔ IsSerialisation R A ls) ↔
      ∀ ls S, StaleChain R A (ls ++ [S]) → ∀ b, ¬ Unanswered R (reduct R A (unionOf ls)) S b := by
  constructor
  · intro hSame ls S hChain
    exact ((hSame _).mp hChain).not_unanswered rfl
  · intro hNone ls
    let U : SearchTree (Frame α) (Set α) :=
      ⟨fun F S => IsInitial R F.active S, Frame.step R, fun _ => True⟩
    have hU : ∀ ms, U.Chain ⟨A, ∅⟩ ms ↔ IsSerialisation R A ms := by
      intro ms
      rw [chain_iff_forall (T := U) rfl]
      simp only [IsSerialisation, U, frameAfter_active]
    rw [← hU]
    refine SearchTree.chain_congr (T := staleTree R fun _ => True) (U := U) rfl
      (fun ms hMs S => ?_) ls
    change IsInitialWith R (frameAfter R A ms).active (frameAfter R A ms).stale S ↔
      IsInitial R (frameAfter R A ms).active S
    refine isInitialWith_iff_isInitial ?_ fun T hT => ?_
    · rw [frameAfter_active]
      exact hFinite.subset reduct_subset
    · rw [hT.admissibleWith.admissible_iff, frameAfter_active]
      exact hNone ms T ((staleChain_concat T).mpr ⟨hMs, hT⟩)

/-- The unions of the exhausted chains are the preferred extensions exactly if these
chains answer all attackers. No preferred extension is ever missed, so all depends
on what is found in addition. -/
theorem preferred_iff_answered (hFinite : A.Finite) :
    (∀ E, (∃ ls, (StaleChain R A ls ∧ (frameAfter R A ls).Exhausted R) ∧ unionOf ls = E) ↔
      Preferred R A E) ↔
      ∀ ls, StaleChain R A ls → (frameAfter R A ls).Exhausted R → Answered R A ls := by
  constructor
  · intro hSame ls hChain hEnd
    exact hChain.admissible_iff.mp ((hSame _).mp ⟨ls, ⟨hChain, hEnd⟩, rfl⟩).prop
  · intro hAnswered E
    constructor
    · intro hReported
      obtain ⟨ls, ⟨hChain, hEnd⟩, rfl⟩ := hReported
      exact hChain.preferred_of_leaf hFinite (hAnswered ls hChain hEnd) hEnd
    · intro hE
      obtain ⟨ls, hChain, rfl⟩ := exists_staleChain_of_admissible (G := ∅) hFinite hE.prop
      obtain ⟨ms, hMore, hEnd⟩ := exists_exhausted hFinite hChain
      have hAdm := hMore.admissible_iff.mpr (hAnswered _ hMore hEnd)
      refine ⟨ls ++ ms, ⟨hMore, hEnd⟩, ?_⟩
      have hLe : unionOf ls ⊆ unionOf (ls ++ ms) := by
        rw [unionOf_append]
        exact Set.subset_union_left
      exact (hE.eq_of_le hAdm hLe).symm

end Reported

section Grounded

variable {A : Set α} {ls : List (Set α)}

/-- Single arguments, each unattacked when it is picked. It makes no difference to a
chain which frames are reported. -/
def UnattackedChain (R : α → α → Prop) (A : Set α) (ls : List (Set α)) : Prop :=
  (unattackedTree R True).Chain ⟨A, ∅⟩ ls

/-- The search by unattacked arguments reports its chains, and if it is to be
grounded, only those at whose end none is left. -/
theorem mem_reported_unattackedTree {grounded : Prop} :
    ls ∈ (unattackedTree R grounded).Reported ⟨A, ∅⟩ ↔ UnattackedChain R A ls ∧
      (grounded → ∀ a ∈ (frameAfter R A ls).active, ¬ (frameAfter R A ls).Unattacked R a) := by
  have hChain : (unattackedTree R grounded).Chain ⟨A, ∅⟩ ls ↔ UnattackedChain R A ls :=
    SearchTree.chain_congr (T := unattackedTree R grounded) (U := unattackedTree R True) rfl
      (fun _ _ _ => Iff.rfl) ls
  exact and_congr_left fun _ => hChain

/-- The sets of such a chain: each holds one active argument that is unattacked in
the frame before it. -/
theorem UnattackedChain.pick (h : UnattackedChain R A ls) {before later : List (Set α)} {S : Set α}
    (hEq : ls = before ++ S :: later) :
    ∃ a ∈ (frameAfter R A before).active, (frameAfter R A before).Unattacked R a ∧ S = {a} :=
  (chain_iff_forall (T := unattackedTree R True) rfl).mp h before S later hEq

/-- Chains of unattacked arguments are chains of initial sets, since a single
unattacked argument is initial. -/
theorem UnattackedChain.staleChain (h : UnattackedChain R A ls) : StaleChain R A ls := by
  apply staleChain_iff.mpr
  intro before S later hEq
  obtain ⟨a, ha, hFree, rfl⟩ := h.pick hEq
  exact hFree.isInitialWith ha

/-- Unattacked arguments leave nothing unanswered: no active argument attacks them,
so there is nothing to answer. -/
theorem UnattackedChain.answered (h : UnattackedChain R A ls) : Answered R A ls := by
  intro before S later hEq b hOpen
  obtain ⟨hb, s, hs, hbs⟩ := hOpen
  obtain ⟨a, -, hFree, rfl⟩ := h.pick hEq
  obtain rfl := Set.mem_singleton_iff.mp hs
  exact absurd hbs (hFree b (Or.inl (by rw [frameAfter_active]; exact hb.1)))

/-- Whatever is picked is in the grounded extension. Stale attackers only make the
search more careful than it has to be. -/
theorem UnattackedChain.subset_grounded (h : UnattackedChain R A ls) :
    unionOf ls ⊆ grounded R A := by
  apply unionOf_subset_grounded
  intro before S later hEq a ha
  obtain ⟨b, hb, hFree, rfl⟩ := h.pick hEq
  obtain rfl := Set.mem_singleton_iff.mp ha
  rw [← frameAfter_active]
  exact ⟨hb, fun c hc => hFree c (Or.inl hc)⟩

/-- Some chain of unattacked arguments cannot be prolonged, so that the grounded
search always reports a sequence. -/
theorem exists_mem_reported_unattackedTree (hFinite : A.Finite) :
    ∃ ls, ls ∈ (unattackedTree R True).Reported ⟨A, ∅⟩ := by
  obtain ⟨ls, hChain, hLeaf⟩ := exists_chain_to_leaf (T := unattackedTree R True) rfl
    (by rintro F S ⟨a, ha, -, rfl⟩; exact ⟨Set.singleton_nonempty a,
      Set.singleton_subset_iff.mpr ha⟩)
    ⟨A, ∅⟩ hFinite
  exact ⟨ls, hChain, fun _ a ha hFree => hLeaf {a} ⟨a, ha, hFree, rfl⟩⟩

/-- The grounded extension is reached on every branch exactly if no stale argument
hides an argument that has no active attacker when the search stops. -/
theorem grounded_iff_unattacked (hFinite : A.Finite) :
    ((∃ ls, ls ∈ (unattackedTree R True).Reported ⟨A, ∅⟩) ∧
      ∀ ls ∈ (unattackedTree R True).Reported ⟨A, ∅⟩, unionOf ls = grounded R A) ↔
      ∀ ls, UnattackedChain R A ls →
        (∃ a ∈ (frameAfter R A ls).active, ∀ b ∈ (frameAfter R A ls).active, ¬ R b a) →
        ∃ a ∈ (frameAfter R A ls).active, (frameAfter R A ls).Unattacked R a := by
  constructor
  · rintro ⟨-, hAll⟩ ls hChain ⟨a, ha, hFree⟩
    by_contra hNone
    have hEnd : ∀ a ∈ (frameAfter R A ls).active, ¬ (frameAfter R A ls).Unattacked R a :=
      fun b hb hb' => hNone ⟨b, hb, hb'⟩
    have hUnion := hAll ls (mem_reported_unattackedTree.mpr ⟨hChain, fun _ => hEnd⟩)
    obtain ⟨haA, hNot, hUnattacked⟩ := mem_frameAfter_active.mp ha
    refine hNot (hUnion ▸ mem_grounded_of_defended haA fun b hb hba => ?_)
    rw [← hUnion]
    by_contra hOpen
    refine hFree b (mem_frameAfter_active.mpr ⟨hb, fun hbU => hUnattacked b hbU hba, ?_⟩) hba
    exact fun c hc hcb => hOpen ⟨c, hc, hcb⟩
  · intro hShown
    refine ⟨exists_mem_reported_unattackedTree hFinite, fun ls hls => ?_⟩
    obtain ⟨hChain, hEnd⟩ := mem_reported_unattackedTree.mp hls
    have hAdm := hChain.staleChain.admissible_iff.mpr hChain.answered
    refine hChain.subset_grounded.antisymm (grounded_subset_unionOf hAdm fun a ha => ?_)
    by_contra hFree
    obtain ⟨b, hb, hb'⟩ := hShown ls hChain ⟨a, ha, fun b hb hba => hFree ⟨b, hb, hba⟩⟩
    exact hEnd trivial b hb hb'

end Grounded

section Unchallenged

variable {A : Set α} {ls : List (Set α)}

/-- An initial set that no initial set attacks. Here neither the set nor its
challengers are judged with helpers. -/
def UnchallengedInitial (R : α → α → Prop) (A S : Set α) : Prop :=
  IsInitial R A S ∧ ∀ T, IsInitial R A T → ∀ t ∈ T, ∀ s ∈ S, ¬ R t s

/-- Each set is unchallenged in the reduct by those before it. Like
`IsSerialisation` this is a notion without stale arguments. -/
def IsUnchallenged (R : α → α → Prop) (A : Set α) (ls : List (Set α)) : Prop :=
  ∀ before S later, ls = before ++ S :: later →
    UnchallengedInitial R (reduct R A (unionOf before)) S

/-- Unchallenged sequences that cannot be prolonged: the ones that the semantics of
unchallenged sets asks for. -/
def IsMaximalUnchallenged (R : α → α → Prop) (A : Set α) (ls : List (Set α)) : Prop :=
  (∀ before S later, ls = before ++ S :: later →
    UnchallengedInitial R (reduct R A (unionOf before)) S) ∧
    ∀ S, ¬ UnchallengedInitial R (reduct R A (unionOf ls)) S

/-- Sets that are unchallenged when stale arguments count as helpers, each in the
frame that those before it leave. -/
def UnchallengedChain (R : α → α → Prop) (A : Set α) (ls : List (Set α)) : Prop :=
  (unchallengedTree R True).Chain ⟨A, ∅⟩ ls

/-- The tree of the unchallenged sequences proper. It exists only to use the lemmas
about trees for these sequences. -/
private def plainTree (R : α → α → Prop) : SearchTree (Frame α) (Set α) :=
  ⟨fun F S => UnchallengedInitial R F.active S, Frame.step R, fun _ => True⟩

/-- The chains of this tree that end in a leaf are the maximal unchallenged
sequences, since its frames are active in the reducts. -/
private theorem plainTree_leaf_iff : (plainTree R).Chain ⟨A, ∅⟩ ls ∧
    (plainTree R).Leaf ((plainTree R).after ⟨A, ∅⟩ ls) ↔ IsMaximalUnchallenged R A ls := by
  have hLeaf : (plainTree R).Leaf ((plainTree R).after ⟨A, ∅⟩ ls) ↔
      ∀ S, ¬ UnchallengedInitial R (frameAfter R A ls).active S := Iff.rfl
  have hKid : ∀ before S, (plainTree R).kid (frameAfter R A before) S ↔
      UnchallengedInitial R (frameAfter R A before).active S := fun _ _ => Iff.rfl
  simp only [chain_iff_forall (T := plainTree R) rfl, hLeaf, hKid, frameAfter_active,
    IsMaximalUnchallenged]

/-- From the end of any sequence a tree of non-empty active sets reaches a leaf,
also if the sequence is no chain of the tree. -/
private theorem exists_extension {T : SearchTree (Frame α) (Set α)} (hNext : T.next = Frame.step R)
    (hKid : ∀ F S, T.kid F S → S.Nonempty ∧ S ⊆ F.active) (hFinite : A.Finite) (ks : List (Set α)) :
    ∃ ms, T.Chain (T.after ⟨A, ∅⟩ ks) ms ∧ T.Leaf (T.after ⟨A, ∅⟩ (ks ++ ms)) := by
  have hAfter : T.after ⟨A, ∅⟩ ks = frameAfter R A ks := by
    rw [SearchTree.after, hNext, frameAfter]
  rw [hAfter]
  have hActive : (frameAfter R A ks).active.Finite := by
    rw [frameAfter_active]
    exact hFinite.subset reduct_subset
  obtain ⟨ms, hMs, hLeaf⟩ := exists_chain_to_leaf hNext hKid (frameAfter R A ks) hActive
  refine ⟨ms, hMs, ?_⟩
  rw [SearchTree.after_append, hAfter]
  exact hLeaf

/-- Over finitely many arguments there is a maximal unchallenged sequence; it may
well be the empty one. -/
theorem exists_isMaximalUnchallenged (hFinite : A.Finite) : ∃ ls, IsMaximalUnchallenged R A ls := by
  obtain ⟨ls, hChain, hLeaf⟩ := exists_extension (T := plainTree R) rfl
    (fun F S hS => ⟨hS.1.1.1, hS.1.admissible.subset⟩) hFinite []
  exact ⟨ls, plainTree_leaf_iff.mp ⟨hChain, hLeaf⟩⟩

/-- The maximal sequences are the right ones exactly if, along the chains of the
search, stale arguments make no difference to what is unchallenged. Where they do
for the first time, one of the two trees goes on differently. -/
theorem unchallenged_iff (hFinite : A.Finite) :
    (∀ ls, ls ∈ (unchallengedTree R True).Reported ⟨A, ∅⟩ ↔ IsMaximalUnchallenged R A ls) ↔
      ∀ ls, UnchallengedChain R A ls → ∀ S,
        (IsInitialWith R (frameAfter R A ls).active (frameAfter R A ls).stale S ∧
          (frameAfter R A ls).Unchallenged R S) ↔
        UnchallengedInitial R (reduct R A (unionOf ls)) S := by
  have hLeaf : ∀ ls, ls ∈ (unchallengedTree R True).Reported ⟨A, ∅⟩ ↔
      (unchallengedTree R True).Chain ⟨A, ∅⟩ ls ∧
        (unchallengedTree R True).Leaf ((unchallengedTree R True).after ⟨A, ∅⟩ ls) :=
    fun ls => and_congr_right fun _ => true_imp_iff
  have hNext : (unchallengedTree R True).next = (plainTree R).next := rfl
  simp only [hLeaf, ← plainTree_leaf_iff, ← frameAfter_active]
  constructor
  · intro hSame ls hChain S
    refine SearchTree.kid_congr_of_leaves hNext (fun ks _ => ?_) (fun ks _ => ?_) hSame hChain S
    · exact exists_extension (T := unchallengedTree R True) rfl
        (fun F S hS => ⟨hS.1.nonempty, hS.1.admissibleWith.subset⟩) hFinite ks
    · exact exists_extension (T := plainTree R) rfl
        (fun F S hS => ⟨hS.1.1.1, hS.1.admissible.subset⟩) hFinite ks
  · intro hKids ls
    have hChain := SearchTree.chain_congr hNext (fun ks hKs S => hKids ks hKs S) ls
    rw [← hChain]
    refine and_congr_right fun hls => forall_congr' fun S => not_congr ?_
    exact hKids ls hls S

end Unchallenged

section Acceptance

variable {A : Set α} {ls : List (Set α)} {argument : α}

/-- A chain only picks what was active at its beginning, as frames only lose active
arguments. -/
theorem unionOf_subset_active {reports : Frame α → Prop} {F : Frame α}
    (h : (staleTree R reports).Chain F ls) : unionOf ls ⊆ F.active := by
  induction ls generalizing F with
  | nil => simp
  | cons S ls ih =>
      rw [unionOf_cons, Set.union_subset_iff]
      exact ⟨h.1.admissibleWith.subset, (ih h.2).trans reduct_subset⟩

/-- The goal-directed search reports the chains whose last set contains the
argument. What it prunes has an early set that contains or attacks the argument,
which then is no member of a later set. -/
theorem mem_reported_acceptanceTree : ls ∈ (acceptanceTree R argument).Reported (⟨A, ∅⟩, ∅) ↔
    StaleChain R A ls ∧ ∃ S ∈ ls.getLast?, argument ∈ S := by
  suffices hAll : ∀ (F : Frame α) (L : Set α), argument ∉ L → (∀ b ∈ L, ¬ R b argument) →
      (ls ∈ (acceptanceTree R argument).Reported (F, L) ↔
        (staleTree R fun _ => True).Chain F ls ∧ ∃ S ∈ ls.getLast?, argument ∈ S) from
    hAll ⟨A, ∅⟩ ∅ (by simp) (by simp)
  induction ls with
  | nil =>
      intro F L hNot _
      rw [SearchTree.mem_reported_nil]
      exact iff_of_false hNot (by simp)
  | cons S ls ih =>
      intro F L hNot hFree
      have hKid : (acceptanceTree R argument).kid (F, L) S ↔ IsInitialWith R F.active F.stale S :=
        (and_iff_right hNot).trans (and_iff_right hFree)
      rw [SearchTree.mem_reported_cons, SearchTree.chain_cons, hKid, and_assoc]
      apply and_congr_right
      intro _
      cases ls with
      | nil => simp [acceptanceTree]
      | cons T ls =>
          rw [List.getLast?_cons_cons]
          by_cases hDecided : argument ∉ S ∧ ∀ b ∈ S, ¬ R b argument
          · exact ih (F.step R S) S hDecided.1 hDecided.2
          · -- The search ends here, and the argument is out for all later sets.
            apply iff_of_false
            · intro hReported
              obtain ⟨⟨hOut, hOut', -⟩, -⟩ := (SearchTree.mem_reported_cons _ _ _ _).mp hReported
              exact hDecided ⟨hOut, hOut'⟩
            · rintro ⟨hChain, U, hLast, hMem⟩
              have hActive := unionOf_subset_active hChain ⟨U, List.mem_of_getLast? hLast, hMem⟩
              exact hDecided hActive.2

/-- The goal-directed search finds a chain exactly if some chain picks the argument:
the search ends with the set that picks it. -/
theorem exists_mem_reported_acceptanceTree :
    (∃ ls, ls ∈ (acceptanceTree R argument).Reported (⟨A, ∅⟩, ∅)) ↔
      ∃ ls, StaleChain R A ls ∧ argument ∈ unionOf ls := by
  simp only [mem_reported_acceptanceTree]
  constructor
  · intro hFound
    obtain ⟨ls, hChain, S, hLast, hMem⟩ := hFound
    exact ⟨ls, hChain, S, List.mem_of_getLast? hLast, hMem⟩
  · intro hPicked
    obtain ⟨ls, hChain, S, hS, hMem⟩ := hPicked
    obtain ⟨before, later, rfl⟩ := List.append_of_mem hS
    rw [List.append_cons] at hChain
    exact ⟨before ++ [S], ((SearchTree.chain_append _ _ _ _).mp hChain).1, S, by simp, hMem⟩

end Acceptance

end Argumentation
