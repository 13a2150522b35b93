import SerialisationSolver.Argumentation.StrongAdmissibility
import SerialisationSolver.Argumentation.Hierarchy

/-! Sequences in which no argument is attacked by two of the sets. Nothing becomes
stale along them, so that a search reports such a sequence exactly if it should. -/
namespace Argumentation

variable {α : Type*} {R : α → α → Prop} {A E S : Set α} {ls ms : List (Set α)}

/-- No argument is attacked by two sets of the sequence. Members of one set may
share what they attack; only two sets at different places may not. -/
def AttacksApart (R : α → α → Prop) (ls : List (Set α)) : Prop :=
  ls.Pairwise fun S T => ∀ s ∈ S, ∀ t ∈ T, ∀ x, R s x → ¬ R t x

section Layers

/-- What holds of every set of a sequence in the reduct by those before it holds of
a longer one exactly if it also holds of the last set. The lemma is about any
relation between a reduct and a set. -/
theorem layers_concat (P : Set α → Set α → Prop) :
    (∀ before T later, ls ++ [S] = before ++ T :: later → P (reduct R A (unionOf before)) T) ↔
      (∀ before T later, ls = before ++ T :: later → P (reduct R A (unionOf before)) T) ∧
        P (reduct R A (unionOf ls)) S := by
  let U : SearchTree (Frame α) (Set α) := ⟨fun F S => P F.active S, Frame.step R, fun _ => True⟩
  have hU : ∀ ms, U.Chain ⟨A, ∅⟩ ms ↔
      ∀ before T later, ms = before ++ T :: later → P (reduct R A (unionOf before)) T := by
    intro ms
    rw [chain_iff_forall (T := U) rfl]
    simp only [U, frameAfter_active]
  rw [← hU, ← hU, SearchTree.chain_concat, ← frameAfter_active]
  exact Iff.rfl

/-- A serialisation sequence with one more set: the sets before it form one, and the
last set is initial in what they leave. -/
theorem isSerialisation_concat : IsSerialisation R A (ls ++ [S]) ↔
    IsSerialisation R A ls ∧ IsInitial R (reduct R A (unionOf ls)) S := layers_concat (IsInitial R)

/-- The same step for unchallenged sequences. What makes the last set unchallenged
depends on the reduct only, never on the order of the sets before it. -/
theorem isUnchallenged_concat : IsUnchallenged R A (ls ++ [S]) ↔
    IsUnchallenged R A ls ∧ UnchallengedInitial R (reduct R A (unionOf ls)) S :=
  layers_concat (UnchallengedInitial R)

/-- The same step for the chains of the search, where the last set is compared with
the frame that the others leave, stale arguments included. -/
theorem unchallengedChain_concat : UnchallengedChain R A (ls ++ [S]) ↔ UnchallengedChain R A ls ∧
    IsInitialWith R (frameAfter R A ls).active (frameAfter R A ls).stale S ∧
      (frameAfter R A ls).Unchallenged R S :=
  SearchTree.chain_concat _ _ _ _

end Layers

section Answered

/-- What an admissible set leaves over does not attack it, since an attacker would
be attacked back and so not be left over. -/
theorem Admissible.not_attacks_of_mem_reduct (h : Admissible R A E) {a b : α}
    (ha : a ∈ reduct R A E) (hb : b ∈ E) : ¬ R a b := by
  intro hab
  obtain ⟨c, hc, hca⟩ := h.defended b hb a ha.1 hab
  exact ha.2.2 c hc hca

/-- In a serialisation sequence nothing has to be answered later: each set is
admissible in its reduct and leaves no attacker unanswered. -/
theorem IsSerialisation.answered (h : IsSerialisation R A ls) : Answered R A ls := by
  intro before S later hEq b hOpen
  exact absurd hOpen (h.not_unanswered hEq b)

/-- Serialisation sequences build up admissible sets. For a chain this is the case
of `StaleChain.admissible_iff` in which nothing is left open. -/
theorem IsSerialisation.admissible_unionOf (h : IsSerialisation R A ls)
    (hChain : StaleChain R A ls) :
    Admissible R A (unionOf ls) := hChain.admissible_iff.mpr h.answered

/-- If the chain and each of its prolongations answer all attackers, then nothing
can be picked any more exactly if the union is a preferred extension. -/
theorem StaleChain.exhausted_iff_preferred (h : StaleChain R A ls) (hFinite : A.Finite)
    (hAnswered : Answered R A ls)
    (hMore : ∀ S, StaleChain R A (ls ++ [S]) → Answered R A (ls ++ [S])) :
    (frameAfter R A ls).Exhausted R ↔ Preferred R A (unionOf ls) := by
  refine ⟨h.preferred_of_leaf hFinite hAnswered, fun hPreferred S hS => ?_⟩
  have hNext : StaleChain R A (ls ++ [S]) := (staleChain_concat S).mpr ⟨h, hS⟩
  have hAdm := hNext.admissible_iff.mpr (hMore S hNext)
  rw [unionOf_append] at hAdm
  -- The union would have to contain what could still be picked.
  obtain ⟨s, hs⟩ := hS.nonempty
  have hActive := hS.admissibleWith.subset hs
  have hOld : s ∈ unionOf ls := hPreferred.2 hAdm Set.subset_union_left (Or.inr ⟨S, by simp, hs⟩)
  rw [frameAfter_active] at hActive
  exact hActive.2.1 hOld

/-- If the chain answers all attackers, then no argument is active at its end
exactly if the union is a stable extension. -/
theorem StaleChain.empty_iff_stable (h : StaleChain R A ls) (hAnswered : Answered R A ls) :
    (frameAfter R A ls).active = ∅ ↔ Stable R A (unionOf ls) := by
  constructor
  · exact fun hEnd => (h.stable_iff hEnd).mpr hAnswered
  · exact fun hStable => hStable.frameAfter_active_eq_empty

end Answered

section Idle

variable (hIdle : ∀ b ∈ (frameAfter R A ls).stale, ∀ a, ¬ R b a)
include hIdle

/-- Where stale arguments attack nothing, only active attackers count, as in the
definition of the grounded extension. -/
theorem unattacked_iff_of_idle (a : α) :
    (frameAfter R A ls).Unattacked R a ↔ ∀ b ∈ (frameAfter R A ls).active, ¬ R b a := by
  constructor
  · exact fun hFree b hb => hFree b (Or.inl hb)
  · intro hFree b hb
    rcases hb with hActive | hStale
    · exact hFree b hActive
    · exact hIdle b hStale a

/-- No active argument is unattacked exactly if the union is complete. That the
union is admissible comes from the answers, and an argument it defends without
containing it would be active and unattacked. -/
theorem StaleChain.attacked_iff_complete (h : StaleChain R A ls) (hAnswered : Answered R A ls) :
    (∀ a ∈ (frameAfter R A ls).active, ¬ (frameAfter R A ls).Unattacked R a) ↔
      Complete R A (unionOf ls) := by
  rw [h.complete_iff, and_iff_right hAnswered]
  simp only [unattacked_iff_of_idle hIdle, not_forall, not_not, exists_prop]

/-- A search by unattacked arguments stops exactly at the grounded extension: its
union never leaves it, and contains it once no unattacked argument is left. -/
theorem UnattackedChain.attacked_iff_grounded (h : UnattackedChain R A ls) :
    (∀ a ∈ (frameAfter R A ls).active, ¬ (frameAfter R A ls).Unattacked R a) ↔
      unionOf ls = grounded R A := by
  have hChain := h.staleChain
  rw [hChain.attacked_iff_complete hIdle h.answered]
  constructor
  · intro hComplete
    obtain ⟨-, hAttacked⟩ := hChain.complete_iff.mp hComplete
    exact h.subset_grounded.antisymm (grounded_subset_unionOf hComplete.1 hAttacked)
  · intro hGrounded
    refine ⟨hChain.admissible_iff.mpr h.answered, fun a ha hDefended => ?_⟩
    rw [hGrounded] at hDefended ⊢
    exact mem_grounded_of_defended ha hDefended

/-- Helpers that attack nothing play no part in what is unchallenged, since they
neither make a set initial nor make one of its challengers initial. -/
theorem unchallenged_iff_of_idle (S : Set α) :
    (IsInitialWith R (frameAfter R A ls).active (frameAfter R A ls).stale S ∧
      (frameAfter R A ls).Unchallenged R S) ↔
        UnchallengedInitial R (reduct R A (unionOf ls)) S := by
  simp only [Frame.Unchallenged, UnchallengedInitial, isInitialWith_iff_of_idle hIdle,
    frameAfter_active]

end Idle

namespace AttacksApart

/-- Beginnings of such sequences are such sequences. The search only ever sees a
beginning, so this is what an induction over its depth uses. -/
theorem of_append (hApart : AttacksApart R (ls ++ ms)) : AttacksApart R ls :=
  (List.pairwise_append.mp hApart).1

/-- What a set of the sequence attacks, the last set does not attack any more. The
earlier set is known through its union only. -/
theorem last (hApart : AttacksApart R (ls ++ [S])) {u s x : α} (hu : u ∈ unionOf ls) (hs : s ∈ S)
    (hux : R u x) : ¬ R s x := by
  obtain ⟨T, hT, huT⟩ := hu
  exact (List.pairwise_append.mp hApart).2.2 T hT S (List.mem_singleton.mpr rfl) u huT s hs x hux

variable (hRange : ∀ a b, R a b → b ∈ A)
include hRange

/-- Nothing is stale after the last set: what it attacks is still active, because no
set before it contains or attacks it. -/
theorem stale_concat (hApart : AttacksApart R (ls ++ [S])) (hAdm : Admissible R A (unionOf ls))
    (hSub : S ⊆ reduct R A (unionOf ls)) : (frameAfter R A (ls ++ [S])).stale = ∅ := by
  apply Set.eq_empty_iff_forall_notMem.mpr
  intro x hx
  rw [frameAfter_concat] at hx
  obtain ⟨hOut, s, hs, hsx⟩ := hx
  rw [frameAfter_active] at hOut
  refine hOut ⟨hRange s x hsx, fun hxU => ?_, fun u hu hux => hApart.last hu hs hux hsx⟩
  exact hAdm.not_attacks_of_mem_reduct (hSub hs) hxU hsx

/-- Such a sequence is a chain exactly if it is a serialisation sequence, and then
nothing is stale at its end. The two parts carry each other through the induction,
as the next set is compared with the frame. -/
theorem chain_spec (hApart : AttacksApart R ls) : (StaleChain R A ls ↔ IsSerialisation R A ls) ∧
    (StaleChain R A ls → (frameAfter R A ls).stale = ∅) := by
  induction ls using List.reverseRecOn with
  | nil => exact ⟨iff_of_true trivial (by simp [IsSerialisation]), fun _ => rfl⟩
  | append_singleton ls S ih =>
      obtain ⟨hSame, hFresh⟩ := ih hApart.of_append
      constructor
      · rw [staleChain_concat, isSerialisation_concat, ← hSame]
        refine and_congr_right fun hChain => ?_
        rw [hFresh hChain, isInitialWith_empty, frameAfter_active]
      · intro hChain
        obtain ⟨hBefore, hLast⟩ := (staleChain_concat S).mp hChain
        have hAdm := (hSame.mp hBefore).admissible_unionOf hBefore
        have hSub := hLast.admissibleWith.subset
        rw [frameAfter_active] at hSub
        exact hApart.stale_concat hRange hAdm hSub

variable (hApart : AttacksApart R ls)
include hApart

/-- The first part of `chain_spec`: among sequences that attack apart, the chains of
the search are the serialisation sequences. -/
theorem staleChain_iff : StaleChain R A ls ↔ IsSerialisation R A ls := (hApart.chain_spec hRange).1

theorem stale_eq_empty (h : StaleChain R A ls) : (frameAfter R A ls).stale = ∅ :=
  (hApart.chain_spec hRange).2 h

/-- Without stale arguments, there is none that attacks anything. This is the form
in which the lemmas about idle helpers use it. -/
theorem idle (h : StaleChain R A ls) : ∀ b ∈ (frameAfter R A ls).stale, ∀ a, ¬ R b a := by
  rw [hApart.stale_eq_empty hRange h]
  exact fun b hb => hb.elim

/-- The attacks of the last set do not matter: whether it can be picked depends on
the frame that the sets before it leave. -/
theorem staleChain_concat_iff : StaleChain R A (ls ++ [S]) ↔ IsSerialisation R A (ls ++ [S]) := by
  rw [staleChain_concat, isSerialisation_concat, ← hApart.staleChain_iff hRange]
  refine and_congr_right fun hChain => ?_
  rw [hApart.stale_eq_empty hRange hChain, isInitialWith_empty, frameAfter_active]

/-- A chain that attacks apart answers all attackers, as it is a serialisation
sequence. -/
theorem answered (h : StaleChain R A ls) : Answered R A ls :=
    ((hApart.staleChain_iff hRange).mp h).answered

/-- After a chain that attacks apart nothing can be picked exactly if its union is
preferred. Prolongations by one set are covered, since the last set may attack what
it likes. -/
theorem exhausted_iff (hFinite : A.Finite) (h : StaleChain R A ls) :
    (frameAfter R A ls).Exhausted R ↔ Preferred R A (unionOf ls) :=
  h.exhausted_iff_preferred hFinite (hApart.answered hRange h) fun _ hMore =>
    ((hApart.staleChain_concat_iff hRange).mp hMore).answered

omit hApart in
/-- Among sequences that attack apart, the chains of the unchallenged search are the
unchallenged sequences. By induction on the last set, which is compared in a frame
without stale arguments. -/
theorem unchallengedChain_iff (hApart : AttacksApart R ls) :
    UnchallengedChain R A ls ↔ IsUnchallenged R A ls := by
  induction ls using List.reverseRecOn with
  | nil => exact iff_of_true trivial (by simp [IsUnchallenged])
  | append_singleton ls S ih =>
      rw [unchallengedChain_concat, isUnchallenged_concat, ← ih hApart.of_append]
      refine and_congr_right fun hChain => ?_
      exact unchallenged_iff_of_idle (hApart.of_append.idle hRange hChain.staleChain) S

/-- Such a chain cannot be prolonged in the search exactly if the sequence cannot be
prolonged as an unchallenged one. -/
theorem maximal_iff (h : UnchallengedChain R A ls) :
    (∀ S, ¬ (IsInitialWith R (frameAfter R A ls).active (frameAfter R A ls).stale S ∧
      (frameAfter R A ls).Unchallenged R S)) ↔
      ∀ S, ¬ UnchallengedInitial R (reduct R A (unionOf ls)) S :=
  forall_congr' fun S => not_congr
    (unchallenged_iff_of_idle (hApart.idle hRange h.staleChain) S)

omit hRange in
/-- No predecessor of a member attacks what was attacked before: two members that
attack the same argument would be two sets that do. -/
theorem unhidden {xs : List α} (hSingle : ls = xs.map ({·})) : Unhidden R xs := by
  subst hSingle
  intro before p a later hEq b _ hpb c hc hcb
  rw [hEq, List.append_cons, List.map_append, List.map_append] at hApart
  have hMem : c ∈ unionOf (before.map ({·})) := ⟨{c}, List.mem_map_of_mem hc, Set.mem_singleton c⟩
  exact hApart.of_append.last hMem (Set.mem_singleton p) hcb hpb

omit hRange in
/-- Unattacked arguments are picked in the order of a listing, where each attacker
of a member is attacked by an earlier member. -/
theorem unattackedChain_iff (hSource : ∀ a b, R a b → a ∈ A) :
    UnattackedChain R A ls ↔ ∃ xs, Listing R A xs ∧ ls = xs.map ({·}) := by
  constructor
  · intro hChain
    obtain ⟨xs, rfl⟩ := hChain.exists_singletons
    exact ⟨xs, hChain.listing, rfl⟩
  · intro hListed
    obtain ⟨xs, hListing, rfl⟩ := hListed
    exact (Argumentation.unattackedChain_iff hSource).mpr ⟨hListing, hApart.unhidden rfl⟩

end AttacksApart

end Argumentation
