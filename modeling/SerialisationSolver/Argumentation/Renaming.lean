import SerialisationSolver.Argumentation.Searches

/-! Renaming arguments. Sets are pulled back along a bijection that preserves and
reflects attacks; what the searches offer and report is pulled back with them. -/
namespace Argumentation

variable {α β : Type*} {R : α → α → Prop} {R' : β → β → Prop} (σ : R ≃r R')
  {A G S : Set β} {F : Frame β}

/-- Conflicts correspond, since the bijection preserves attacks and reflects them. -/
theorem conflictFree_preimage : ConflictFree R (Set.preimage σ S) ↔ ConflictFree R' S := by
  simp only [ConflictFree, σ.surjective.forall, Set.mem_preimage, σ.map_rel_iff]

/-- Sets that are admissible with helpers correspond, where the active arguments and
the helpers are pulled back along with the set. -/
theorem admissibleWith_preimage :
    AdmissibleWith R (Set.preimage σ A) (Set.preimage σ G) (Set.preimage σ S) ↔
      AdmissibleWith R' A G S := by
  have hSubset : Set.preimage σ S ⊆ Set.preimage σ A ↔ S ⊆ A :=
    σ.surjective.preimage_subset_preimage_iff
  have hDefended : (∀ a ∈ Set.preimage σ S, ∀ b ∈ Set.preimage σ A, R b a →
      (∃ c ∈ Set.preimage σ S, R c b) ∨ ∃ c ∈ Set.preimage σ G, R c b) ↔
      ∀ a ∈ S, ∀ b ∈ A, R' b a → (∃ c ∈ S, R' c b) ∨ ∃ c ∈ G, R' c b := by
    simp only [σ.surjective.forall, σ.surjective.exists, Set.mem_preimage, σ.map_rel_iff]
  constructor
  · intro h
    exact ⟨hSubset.mp h.subset, (conflictFree_preimage σ).mp h.conflictFree,
      hDefended.mp h.defended⟩
  · intro h
    exact ⟨hSubset.mpr h.subset, (conflictFree_preimage σ).mpr h.conflictFree,
      hDefended.mpr h.defended⟩

/-- A bijection pulls back non-empty sets to non-empty ones, so that initial sets
can correspond. -/
theorem nonempty_preimage : (Set.preimage σ S).Nonempty ↔ S.Nonempty := by
  simp only [Set.Nonempty, σ.surjective.exists, Set.mem_preimage]

/-- The initial sets correspond: the smaller candidates are pulled back as well, and
every set is the preimage of its image. -/
theorem isInitialWith_preimage :
    IsInitialWith R (Set.preimage σ A) (Set.preimage σ G)
    (Set.preimage σ S) ↔ IsInitialWith R' A G S := by
  simp only [IsInitialWith, Minimal, σ.injective.preimage_surjective.forall, nonempty_preimage,
    admissibleWith_preimage, σ.surjective.preimage_subset_preimage_iff]

section Frames

/-- The frame with both of its sets pulled back. A search over the renamed arguments
stands there when the other one stands at the frame itself. -/
def Frame.comap (F : Frame β) : Frame α := ⟨Set.preimage σ F.active, Set.preimage σ F.stale⟩

/-- Picking a set and pulling back the frame is pulling back first and picking the
preimage of the set. -/
theorem Frame.comap_step : (F.step R' S).comap σ = (F.comap σ).step R (Set.preimage σ S) := by
  ext a
  · simp only [Frame.comap, Frame.step, Set.mem_preimage, mem_reduct, σ.surjective.forall,
      σ.map_rel_iff]
  · simp only [Frame.comap, Frame.step, Set.mem_preimage, Set.mem_ofPred_eq, σ.surjective.exists,
      σ.map_rel_iff]

/-- An argument is unattacked in the pulled back frame exactly if its image is
unattacked in the frame. -/
theorem Frame.unattacked_comap {a : α} : (F.comap σ).Unattacked R a ↔ F.Unattacked R' (σ a) := by
  simp only [Frame.Unattacked, Frame.comap, σ.surjective.forall, Set.mem_preimage, σ.map_rel_iff]

/-- Nothing can be picked in the one frame exactly if nothing can be picked in the
other, as every set is a preimage. -/
theorem Frame.exhausted_comap : (F.comap σ).Exhausted R ↔ F.Exhausted R' := by
  simp only [Frame.Exhausted, Frame.comap, σ.injective.preimage_surjective.forall,
    isInitialWith_preimage]

/-- A set is unchallenged exactly if its preimage is, since its challengers
correspond to those of the preimage. -/
theorem Frame.unchallenged_comap :
    (F.comap σ).Unchallenged R (Set.preimage σ S) ↔ F.Unchallenged R' S := by
  simp only [Frame.Unchallenged, Frame.comap, σ.injective.preimage_surjective.forall,
    isInitialWith_preimage, σ.surjective.forall, Set.mem_preimage, σ.map_rel_iff]

/-- The active arguments of both frames run out together. This is the condition
under which the stable search reports. -/
theorem Frame.comap_active_eq_empty : (F.comap σ).active = ∅ ↔ F.active = ∅ := by
  simp only [Frame.comap, Set.eq_empty_iff_forall_notMem, σ.surjective.forall, Set.mem_preimage]

/-- No active argument is unattacked in both or in neither. This is the condition
under which the complete and the grounded search report. -/
theorem Frame.attacked_comap : (∀ a ∈ (F.comap σ).active, ¬ (F.comap σ).Unattacked R a) ↔
    ∀ a ∈ F.active, ¬ F.Unattacked R' a := by
  simp only [Frame.unattacked_comap, σ.surjective.forall]
  exact Iff.rfl

end Frames

section Trees

variable {ls : List (Set β)}

/-- A search by initial sets reports a sequence exactly if the renamed search
reports its preimage, as long as both report corresponding frames. -/
theorem mem_reported_staleTree_comap {reports : Frame α → Prop} {reports' : Frame β → Prop}
    (hReports : ∀ F, reports' F ↔ reports (F.comap σ)) : ls ∈ (staleTree R' reports').Reported F ↔
      ls.map (Set.preimage σ) ∈ (staleTree R reports).Reported (F.comap σ) :=
  SearchTree.mem_reported_map _ _ (fun _ _ => (isInitialWith_preimage σ).symm)
    (fun _ _ => Frame.comap_step σ) hReports F ls

/-- The same for the search by single unattacked arguments: the preimage of a single
argument is one, too. -/
theorem mem_reported_unattackedTree_comap {grounded : Prop} :
    ls ∈ (unattackedTree R' grounded).Reported F ↔
      ls.map (Set.preimage σ) ∈ (unattackedTree R grounded).Reported (F.comap σ) := by
  refine SearchTree.mem_reported_map _ _ (fun F S => ?_) (fun _ _ => Frame.comap_step σ)
    (fun F => imp_congr_right fun _ => (Frame.attacked_comap σ).symm) F ls
  have hSingle : ∀ a, S = {σ a} ↔ Set.preimage σ S = {a} := by
    intro a
    simp only [Set.ext_iff, σ.surjective.forall, Set.mem_preimage, Set.mem_singleton_iff,
      σ.injective.eq_iff]
  simp only [unattackedTree, Frame.unattacked_comap, σ.surjective.exists, hSingle]
  exact Iff.rfl

/-- The same for the search by unchallenged sets, where what is offered depends on
all initial sets of the frame. -/
theorem mem_reported_unchallengedTree_comap {maximal : Prop} :
    ls ∈ (unchallengedTree R' maximal).Reported F ↔
      ls.map (Set.preimage σ) ∈ (unchallengedTree R maximal).Reported (F.comap σ) := by
  have hKid : ∀ (F : Frame β) S, IsInitialWith R' F.active F.stale S ∧ F.Unchallenged R' S ↔
      IsInitialWith R (F.comap σ).active (F.comap σ).stale (Set.preimage σ S) ∧
        (F.comap σ).Unchallenged R (Set.preimage σ S) :=
    fun F S => and_congr (isInitialWith_preimage σ).symm (Frame.unchallenged_comap σ).symm
  refine SearchTree.mem_reported_map _ _ hKid (fun _ _ => Frame.comap_step σ) (fun F => ?_) F ls
  simp only [unchallengedTree, σ.injective.preimage_surjective.forall, hKid]

/-- The same for the search for one argument. Here the state also holds the last
set, and the argument that is looked for is renamed with the others. -/
theorem mem_reported_acceptanceTree_comap {argument : α} {L : Set β} :
    ls ∈ (acceptanceTree R' (σ argument)).Reported (F, L) ↔
      ls.map (Set.preimage σ) ∈ (acceptanceTree R argument).Reported (F.comap σ,
        Set.preimage σ L) := by
  refine SearchTree.mem_reported_map (T := acceptanceTree R' (σ argument))
    (V := acceptanceTree R argument)
    (fun s : Frame β × Set β => (s.1.comap σ, Set.preimage σ s.2)) _ (fun s S => ?_) (fun s S => ?_)
    (fun s => Iff.rfl) (F, L) ls
  · refine and_congr Iff.rfl (and_congr ?_ (isInitialWith_preimage σ).symm)
    simp only [σ.surjective.forall, Set.mem_preimage, σ.map_rel_iff]
  · exact congrArg (·, Set.preimage σ S) (Frame.comap_step σ)

end Trees

end Argumentation
