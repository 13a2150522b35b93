import SerialisationSolver.Argumentation.Searches

/-! How the searches compare. All of them follow chains of initial sets, so they
differ only in the chains they stop at. -/
namespace Argumentation

variable {α : Type*} {R : α → α → Prop} {F : Frame α} {A : Set α} {ls ms : List (Set α)}

/-- Beginnings of chains are chains. What one search has picked so far can therefore
be compared with another search. -/
theorem StaleChain.of_append (h : StaleChain R A (ls ++ ms)) : StaleChain R A ls :=
  ((SearchTree.chain_append _ _ _ _).mp h).1

/-- A chain is exhausted if none of the chains goes on after it. This turns a
property of frames into one of sequences. -/
theorem exhausted_frameAfter_iff (h : StaleChain R A ls) :
    (frameAfter R A ls).Exhausted R ↔ ∀ S, ¬ StaleChain R A (ls ++ [S]) := by
  simp only [Frame.Exhausted, staleChain_concat, h, true_and]

/-- Where nothing is active, nothing can be picked, as initial sets are non-empty
sets of active arguments. -/
theorem Frame.exhausted_of_active_eq_empty (hEmpty : F.active = ∅) : F.Exhausted R := by
  intro S hS
  obtain ⟨a, ha⟩ := hS.nonempty
  exact Set.notMem_empty a (hEmpty ▸ hS.admissibleWith.subset ha)

/-- Where nothing can be picked every active argument has an active or stale
attacker, because an unattacked argument could still be picked. -/
theorem Frame.Exhausted.attacked (h : F.Exhausted R) : ∀ a ∈ F.active, ¬ F.Unattacked R a :=
  fun a ha hFree => h {a} (hFree.isInitialWith ha)

/-- An unattacked argument is not challenged by any initial set, since the members
of these are active. -/
theorem Frame.Unattacked.unchallenged {a : α} (h : F.Unattacked R a) : F.Unchallenged R {a} := by
  intro T hT t ht s hs
  rw [Set.mem_singleton_iff.mp hs]
  exact h t (Or.inl (hT.admissibleWith.subset ht))

/-- Nothing is active after a sequence exactly if each argument was picked or
attacked by one that was picked. -/
theorem active_frameAfter_eq_empty_iff : (frameAfter R A ls).active = ∅ ↔
    ∀ a ∈ A, a ∈ unionOf ls ∨ ∃ s ∈ unionOf ls, R s a := by
  simp only [Set.eq_empty_iff_forall_notMem, mem_frameAfter_active]
  grind

/-- The unchallenged search follows chains of initial sets like the other ones; it
only offers fewer sets. -/
theorem UnchallengedChain.staleChain (h : UnchallengedChain R A ls) : StaleChain R A ls := by
  apply staleChain_iff.mpr
  intro before S later hEq
  exact ((chain_iff_forall (T := unchallengedTree R True) rfl).mp h before S later hEq).1

/-- What the maximal unchallenged search reports. Unattacked arguments are
unchallenged, so none of them is left, and the complete search reports the sequence
as well. -/
theorem mem_reported_unchallengedTree (h : ls ∈ (unchallengedTree R True).Reported ⟨A, ∅⟩) :
    StaleChain R A ls ∧
      ∀ a ∈ (frameAfter R A ls).active, ¬ (frameAfter R A ls).Unattacked R a := by
  obtain ⟨hChain, hEnd⟩ := h
  refine ⟨UnchallengedChain.staleChain hChain, fun a ha hFree => ?_⟩
  exact hEnd trivial {a} ⟨hFree.isInitialWith ha, hFree.unchallenged⟩

end Argumentation
