import SerialisationSolver.Argumentation.Searches

/-! Strong admissibility: arguments listed so that each attacker of a member is
attacked by an earlier member. A search by single unattacked arguments finds the
listings in which no stale argument hides a member from it. -/
namespace Argumentation

variable {α : Type*} (R : α → α → Prop)

/-- Each member is defended by a strongly admissible set of other members. The
defenders get smaller with each unfolding, so that no circle of members can defend
itself. -/
inductive StronglyAdmissible (A : Set α) : Set α → Prop
  | intro {E : Set α} (subset : E ⊆ A) (defenders : α → Set α)
      (others : ∀ a ∈ E, defenders a ⊆ E \ {a})
      (strong : ∀ a ∈ E, StronglyAdmissible A (defenders a))
      (defended : ∀ a ∈ E, ∀ b ∈ A, R b a → ∃ c ∈ defenders a, R c b) : StronglyAdmissible A E

/-- Members in an order in which each attacker of a member is attacked by an earlier
member. The first member of a listing has no attackers. -/
structure Listing (A : Set α) (xs : List α) : Prop where
  nodup : xs.Nodup
  subset : ∀ a ∈ xs, a ∈ A
  countered : ∀ before a later, xs = before ++ a :: later → ∀ b ∈ A, R b a → ∃ c ∈ before, R c b

/-- No attacker of a member is attacked by its predecessor after it was attacked by
another member before. Such an attacker would be stale when the member is to be
picked, and would hide it. -/
def Unhidden (xs : List α) : Prop :=
  ∀ before p a later, xs = before ++ p :: a :: later → ∀ b, R b a → R p b → ∀ c ∈ before, ¬ R c b

variable {R} {A E : Set α} {xs ys : List α}

section Listing

theorem listing_nil : Listing R A [] := ⟨List.nodup_nil, by simp, by simp⟩

/-- Beginnings of listings are listings, since only what comes before a member is
asked for. -/
theorem Listing.of_append (h : Listing R A (xs ++ ys)) : Listing R A xs where
  nodup := h.nodup.of_append_left
  subset := fun a ha => h.subset a (List.mem_append_left _ ha)
  countered := by
    intro before a later hEq
    exact h.countered before a (later ++ ys) (by rw [hEq, List.append_assoc, List.cons_append])

/-- A member of a listing does not occur among those before it, as no member occurs
twice. -/
theorem Listing.notMem_before (h : Listing R A xs) {before later : List α} {a : α}
    (hEq : xs = before ++ a :: later) : a ∉ before := by
  have hNodup := h.nodup
  rw [hEq] at hNodup
  exact fun hMem => (List.nodup_append.mp hNodup).2.2 a hMem a List.mem_cons_self rfl

/-- A listing goes on with a further argument whose attackers are all attacked by
its members, in whatever order these stand. -/
theorem Listing.concat (h : Listing R A xs) {a : α} (ha : a ∈ A) (hNew : a ∉ xs)
    (hCountered : ∀ b ∈ A, R b a → ∃ c ∈ xs, R c b) : Listing R A (xs ++ [a]) where
  nodup := by
    rw [← List.concat_eq_append]
    exact h.nodup.concat hNew
  subset := List.forall_mem_append.mpr ⟨h.subset, List.forall_mem_singleton.mpr ha⟩
  countered := by
    intro before b later hEq
    rcases List.eq_nil_or_concat later with rfl | ⟨later, c, rfl⟩
    · obtain ⟨rfl, hSame⟩ := List.append_inj' hEq rfl
      obtain rfl := List.singleton_inj.mp hSame
      exact hCountered
    · rw [List.concat_eq_append, ← List.cons_append, ← List.append_assoc] at hEq
      exact h.countered before b later (List.append_inj' hEq rfl).1

/-- No member attacks another one: the first attack of a later member would have
been answered by an attack among earlier ones. -/
theorem Listing.conflictFree (h : Listing R A xs) : ConflictFree R {a | a ∈ xs} := by
  induction xs using List.reverseRecOn with
  | nil => rintro a ⟨⟩
  | append_singleton xs a ih =>
      have hFree := ih h.of_append
      have ha : a ∈ A := h.subset a (by simp)
      have hCountered := h.countered xs a [] rfl
      have hInto : ∀ c ∈ xs, ¬ R c a := by
        intro c hc hca
        obtain ⟨d, hd, hdc⟩ := hCountered c (h.subset c (List.mem_append_left _ hc)) hca
        exact hFree d hd c hc hdc
      have hFrom : ∀ c ∈ xs, ¬ R a c := by
        intro c hc hac
        obtain ⟨before, later, hEq⟩ := List.append_of_mem hc
        obtain ⟨d, hd, hda⟩ := h.of_append.countered before c later hEq a ha hac
        exact hInto d (by simp [hEq, hd]) hda
      have hSelf : ¬ R a a := by
        intro haa
        obtain ⟨c, hc, hca⟩ := hCountered a ha haa
        exact hInto c hc hca
      have hOld : ∀ b ∈ xs, ∀ c ∈ xs ++ [a], ¬ R b c := fun b hb =>
        List.forall_mem_append.mpr ⟨hFree b hb, List.forall_mem_singleton.mpr (hInto b hb)⟩
      have hLast : ∀ c ∈ xs ++ [a], ¬ R a c :=
        List.forall_mem_append.mpr ⟨hFrom, List.forall_mem_singleton.mpr hSelf⟩
      exact List.forall_mem_append.mpr ⟨hOld, List.forall_mem_singleton.mpr hLast⟩

/-- The members of a listing form a strongly admissible set. What comes before a
member defends it, and is strongly admissible by induction on the listing. -/
theorem Listing.stronglyAdmissible (h : Listing R A xs) : StronglyAdmissible R A {a | a ∈ xs} := by
  induction hLength : xs.length using Nat.strong_induction_on generalizing xs with
  | h n ih =>
      have hSplit : ∀ a, ∃ before, a ∈ xs → ∃ later, xs = before ++ a :: later := by
        intro a
        by_cases ha : a ∈ xs
        · obtain ⟨before, later, hEq⟩ := List.append_of_mem ha
          exact ⟨before, fun _ => ⟨later, hEq⟩⟩
        · exact ⟨[], fun hMem => absurd hMem ha⟩
      choose before hBefore using hSplit
      refine .intro h.subset (fun a => {c | c ∈ before a}) ?_ ?_ ?_
      · intro a ha c hc
        obtain ⟨later, hEq⟩ := hBefore a ha
        refine ⟨hEq ▸ List.mem_append_left _ hc, ?_⟩
        rintro rfl
        exact h.notMem_before hEq hc
      · intro a ha
        obtain ⟨later, hEq⟩ := hBefore a ha
        rw [hEq] at h hLength
        exact ih _ (by rw [← hLength, List.length_append, List.length_cons]; omega) h.of_append rfl
      · intro a ha
        obtain ⟨later, hEq⟩ := hBefore a ha
        exact h.countered _ _ _ hEq

/-- A strongly admissible set can be listed after any listing. The induction follows
the defenders of the members, which are listed before the members they defend. -/
theorem StronglyAdmissible.exists_listing_append (hFinite : A.Finite)
    (hE : StronglyAdmissible R A E) (h : Listing R A xs) :
    ∃ ys, Listing R A (xs ++ ys) ∧ (∀ a ∈ ys, a ∈ E) ∧ ∀ a ∈ E, a ∈ xs ++ ys := by
  induction hE generalizing xs with
  | @intro E subset defenders others strong defended ih =>
      suffices hAll : ∀ S : Set α, S.Finite → S ⊆ E →
          ∃ ys, Listing R A (xs ++ ys) ∧ (∀ a ∈ ys, a ∈ E) ∧ ∀ a ∈ S, a ∈ xs ++ ys from
        hAll E (hFinite.subset subset) le_rfl
      intro S hS
      induction S, hS using Set.Finite.induction_on with
      | empty => exact fun _ => ⟨[], by simpa using h, by simp, by simp⟩
      | @insert a S _ _ ihS =>
          intro hSub
          obtain ⟨ys, hListing, hYs, hCovers⟩ := ihS ((Set.subset_insert a S).trans hSub)
          have ha : a ∈ E := hSub (Set.mem_insert a S)
          -- First the defenders of the argument, then the argument itself.
          obtain ⟨zs, hListing', hZs, hCovers'⟩ := ih a ha hListing
          have hZs' : ∀ c ∈ zs, c ∈ E := fun c hc => (others a ha (hZs c hc)).1
          by_cases hOld : a ∈ xs ++ ys ++ zs
          · refine ⟨ys ++ zs, by rwa [← List.append_assoc], ?_, ?_⟩
            · grind
            · grind
          · have hNew := hListing'.concat (subset ha) hOld fun b hb hba => by
              obtain ⟨c, hc, hcb⟩ := defended a ha b hb hba
              exact ⟨c, hCovers' c hc, hcb⟩
            refine ⟨ys ++ zs ++ [a], by simpa only [List.append_assoc] using hNew, ?_, ?_⟩
            · grind
            · grind

/-- The strongly admissible sets are those that have a listing. This ties the
inductive notion to what a search by single arguments can produce. -/
theorem stronglyAdmissible_iff (hFinite : A.Finite) :
    StronglyAdmissible R A E ↔ ∃ xs, Listing R A xs ∧ {a | a ∈ xs} = E := by
  constructor
  · intro hE
    obtain ⟨xs, hListing, hSub, hCovers⟩ := hE.exists_listing_append hFinite listing_nil
    exact ⟨xs, hListing, Set.ext fun a => ⟨hSub a, hCovers a⟩⟩
  · intro hListed
    obtain ⟨xs, hListing, rfl⟩ := hListed
    exact hListing.stronglyAdmissible

end Listing

section Chains

/-- A sequence of single arguments picks the members of the list that it is made
from. -/
theorem unionOf_singletons : unionOf (xs.map ({·})) = {a | a ∈ xs} := by
  ext a
  simp

/-- What is active after single arguments was not picked, nor attacked by one of
them. -/
theorem mem_frameAfter_singletons {a : α} : a ∈ (frameAfter R A (xs.map ({·}))).active ↔
    a ∈ A ∧ a ∉ xs ∧ ∀ s ∈ xs, ¬ R s a := by
  rw [mem_frameAfter_active, unionOf_singletons]
  exact Iff.rfl

/-- A chain of single arguments, each seen from the frame before it, in terms of the
list of these arguments. -/
theorem unattackedChain_singletons : UnattackedChain R A (xs.map ({·})) ↔
    ∀ before a later, xs = before ++ a :: later →
      a ∈ (frameAfter R A (before.map ({·}))).active ∧
        (frameAfter R A (before.map ({·}))).Unattacked R a := by
  constructor
  · intro hChain before a later hEq
    have hSplit : xs.map ({·}) = before.map ({·}) ++
        ({a} : Set α) :: later.map ({·}) := by simp [hEq]
    obtain ⟨b, hb, hFree, hSame⟩ := hChain.pick hSplit
    obtain rfl := Set.singleton_eq_singleton_iff.mp hSame
    exact ⟨hb, hFree⟩
  · intro hAll
    apply (chain_iff_forall (T := unattackedTree R True) rfl).mpr
    intro before S later hEq
    obtain ⟨before, rest, rfl, rfl, hRest⟩ := List.map_eq_append_iff.mp hEq
    obtain ⟨a, later, rfl, rfl, rfl⟩ := List.map_eq_cons_iff.mp hRest
    obtain ⟨ha, hFree⟩ := hAll before a later rfl
    exact ⟨a, ha, hFree, rfl⟩

/-- Every chain of unattacked arguments is made from a list, which the two lemmas
before then apply to. -/
theorem UnattackedChain.exists_singletons {ls : List (Set α)} (h : UnattackedChain R A ls) :
    ∃ xs : List α, ls = xs.map ({·}) := by
  have hSingle : ∀ S ∈ ls, ∃ a, S = {a} := by
    intro S hS
    obtain ⟨before, later, hEq⟩ := List.append_of_mem hS
    obtain ⟨a, -, -, rfl⟩ := h.pick hEq
    exact ⟨a, rfl⟩
  clear h
  induction ls with
  | nil => exact ⟨[], rfl⟩
  | cons S ls ih =>
      rw [List.forall_mem_cons] at hSingle
      obtain ⟨a, rfl⟩ := hSingle.1
      obtain ⟨xs, rfl⟩ := ih hSingle.2
      exact ⟨a :: xs, rfl⟩

/-- Unattacked arguments form a listing: a removed attacker was attacked, since it
was not picked before an argument it attacks. -/
theorem UnattackedChain.listing (h : UnattackedChain R A (xs.map ({·}))) : Listing R A xs := by
  rw [unattackedChain_singletons] at h
  induction xs using List.reverseRecOn with
  | nil => exact listing_nil
  | append_singleton xs a ih =>
      have hBefore : Listing R A xs := by
        refine ih fun before b later hEq => h before b (later ++ [a]) ?_
        rw [hEq, List.append_assoc, List.cons_append]
      obtain ⟨hActive, hFree⟩ := h xs a [] rfl
      obtain ⟨ha, hNew, hOut⟩ := mem_frameAfter_singletons.mp hActive
      refine hBefore.concat ha hNew fun b hb hba => ?_
      by_contra hNone
      refine hFree b
        (Or.inl (mem_frameAfter_singletons.mpr ⟨hb, fun hbX => hOut b hbX hba, ?_⟩)) hba
      exact fun c hc hcb => hNone ⟨c, hc, hcb⟩

/-- Stale after a list with a last argument is what this last one attacks although
it was out before. -/
theorem mem_frameAfter_stale {p b : α} : b ∈ (frameAfter R A ((xs ++ [p]).map ({·}))).stale ↔
    b ∉ (frameAfter R A (xs.map ({·}))).active ∧ R p b := by
  rw [List.map_append, frameAfter, List.foldl_append, List.map_singleton, List.foldl_cons,
    List.foldl_nil]
  simp [Frame.step, frameAfter]

/-- The search by single unattacked arguments follows the listings in which the
predecessor of a member attacks none of its attackers anew. -/
theorem unattackedChain_iff (hRange : ∀ a b, R a b → a ∈ A) :
    UnattackedChain R A (xs.map ({·})) ↔ Listing R A xs ∧ Unhidden R xs := by
  constructor
  · intro hChain
    refine ⟨hChain.listing, ?_⟩
    intro before p a later hEq b hba hpb c hc hcb
    obtain ⟨-, hFree⟩ := unattackedChain_singletons.mp hChain (before ++ [p]) a later
      (by simp [hEq])
    refine hFree b (Or.inr (mem_frameAfter_stale.mpr ⟨fun hActive => ?_, hpb⟩)) hba
    exact (mem_frameAfter_singletons.mp hActive).2.2 c hc hcb
  · intro hBoth
    obtain ⟨hListing, hUnhidden⟩ := hBoth
    apply unattackedChain_singletons.mpr
    intro before a later hEq
    have hFree := hListing.conflictFree
    have hIn : ∀ c ∈ before, c ∈ xs := fun c hc => hEq ▸ List.mem_append_left _ hc
    have haX : a ∈ xs := hEq ▸ List.mem_append_right _ List.mem_cons_self
    refine ⟨mem_frameAfter_singletons.mpr ⟨hListing.subset a haX, hListing.notMem_before hEq,
      fun c hc => hFree c (hIn c hc) a haX⟩, ?_⟩
    intro b hb hba
    cases hb with
    | inl hActive =>
        obtain ⟨hbA, -, hOpen⟩ := mem_frameAfter_singletons.mp hActive
        obtain ⟨c, hc, hcb⟩ := hListing.countered before a later hEq b hbA hba
        exact hOpen c hc hcb
    | inr hStale =>
        rcases List.eq_nil_or_concat before with rfl | ⟨before, p, rfl⟩
        · exact hStale.elim
        · -- The attacker was out before its last attack, so it was attacked before.
          rw [List.concat_eq_append] at hStale hIn hEq
          obtain ⟨hOut, hpb⟩ := mem_frameAfter_stale.mp hStale
          rw [List.append_assoc, List.singleton_append] at hEq
          refine hOut (mem_frameAfter_singletons.mpr ⟨hRange b a hba, fun hbB => ?_, ?_⟩)
          · exact hFree b (hIn b (List.mem_append_left _ hbB)) a haX hba
          · exact hUnhidden before p a later hEq b hba hpb

/-- Which sets the search finds: those with a listing in which no member is hidden
when its turn comes. A set may have several listings, and one of this kind is
enough. -/
theorem exists_unattackedChain_iff (hRange : ∀ a b, R a b → a ∈ A) :
    (∃ ls, UnattackedChain R A ls ∧ unionOf ls = E) ↔
      ∃ xs, Listing R A xs ∧ Unhidden R xs ∧ {a | a ∈ xs} = E := by
  constructor
  · intro hFound
    obtain ⟨ls, hChain, hUnion⟩ := hFound
    obtain ⟨xs, rfl⟩ := hChain.exists_singletons
    obtain ⟨hListing, hUnhidden⟩ := (unattackedChain_iff hRange).mp hChain
    exact ⟨xs, hListing, hUnhidden, by rw [← unionOf_singletons, hUnion]⟩
  · intro hListed
    obtain ⟨xs, hListing, hUnhidden, hMembers⟩ := hListed
    exact ⟨xs.map ({·}), (unattackedChain_iff hRange).mpr ⟨hListing, hUnhidden⟩,
      by rw [unionOf_singletons, hMembers]⟩

end Chains

end Argumentation
