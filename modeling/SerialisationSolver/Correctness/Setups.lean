import SerialisationSolver.Correctness.Implementation

/-! Every enumerator at once: the mode that computes it, the tree that this mode
implements as long as its variables fit, and what its calls pick. -/
namespace SerialisationSolver

open Interaction Interaction.Program Satisfiability Argumentation

/-- All variables are in the range of `int`. One enumerator uses none, and for it
there is no condition. -/
def Enumerator.Fits (af : AF) : Enumerator → Prop
  | .strongAdmissible _ => True
  | _ => 2 * af.args < 2 ^ 31

/-- What the search tree of an enumerator reports from the full set, where nothing
is stale. -/
def Enumerator.reported (af : AF) : Enumerator → Set (List (Set Nat))
  | .admissible preferred =>
      (admissibleTree af.Attacks (preferred = true)).Reported ⟨af.arguments, ∅⟩
  | .complete => (completeTree af.Attacks).Reported ⟨af.arguments, ∅⟩
  | .strongAdmissible grounded =>
      (unattackedTree af.Attacks (grounded = true)).Reported ⟨af.arguments, ∅⟩
  | .stable => (stableTree af.Attacks).Reported ⟨af.arguments, ∅⟩
  | .unchallenged maximal =>
      (unchallengedTree af.Attacks (maximal = true)).Reported ⟨af.arguments, ∅⟩
  | .argumentAdmissible argument =>
      (acceptanceTree af.Attacks argument).Reported (⟨af.arguments, ∅⟩, ∅)

section Reported

variable {af : AF} {ls : List (Set Nat)}

/-- The reported sequences in terms of chains, for each of the trees whose states
are frames. Here the one of ES-AD and ES-PR. -/
theorem mem_reported_admissible {preferred : Bool} :
    ls ∈ Enumerator.reported af (.admissible preferred) ↔ StaleChain af.Attacks af.arguments ls ∧
      (preferred = true → (frameAfter af.Attacks af.arguments ls).Exhausted af.Attacks) :=
  mem_reported_staleTree

theorem mem_reported_complete : ls ∈ Enumerator.reported af .complete ↔
    StaleChain af.Attacks af.arguments ls ∧
      ∀ a ∈ (frameAfter af.Attacks af.arguments ls).active,
        ¬ (frameAfter af.Attacks af.arguments ls).Unattacked af.Attacks a :=
  mem_reported_staleTree

theorem mem_reported_strongAdmissible {grounded : Bool} :
    ls ∈ Enumerator.reported af (.strongAdmissible grounded) ↔
      UnattackedChain af.Attacks af.arguments ls ∧
        (grounded = true → ∀ a ∈ (frameAfter af.Attacks af.arguments ls).active,
          ¬ (frameAfter af.Attacks af.arguments ls).Unattacked af.Attacks a) :=
  mem_reported_unattackedTree

theorem mem_reported_stable : ls ∈ Enumerator.reported af .stable ↔
    StaleChain af.Attacks af.arguments ls ∧ (frameAfter af.Attacks af.arguments ls).active = ∅ :=
  mem_reported_staleTree

end Reported

/-- A set that a call may take: some of the active arguments, in their order and
free of conflicts. -/
structure Layer (af : AF) (active : IterableBitSet) (set : List Nat) : Prop where
  sublist : set.Sublist active.array
  nonempty : set ≠ []
  conflictFree : ConflictFree af.Attacks (setOf set)

/-- How an enumerator runs from the full set of arguments: its mode, the tree that
the mode implements, and how they belong together. Once a variable is out of range
the first call fails. -/
structure Enumerator.Setup (af : AF) (enumerator : Enumerator) where
  {Flag : Type}
  {σ : Type}
  mode : Mode Flag
  tree : SearchTree σ (Set Nat)
  abs : IterableBitSet → Sequence → σ
  Good : IterableBitSet → Sequence → Prop
  start_eq : ∀ fuel, enumerator.start fuel af (.full af.args) =
    search af mode fuel (.full af.args) []
  good : Good (.full af.args) []
  reported_eq : tree.Reported (abs (.full af.args) []) = enumerator.reported af
  implements : enumerator.Fits af → mode.Implements af tree abs Good
  draws : mode.Draws
  takes : enumerator.Fits af → mode.Takes Correct (fun active _ => Reached af active) (Layer af)
  fails : ¬ enumerator.Fits af → ∀ fuel, ∃ fault, search af mode fuel (.full af.args) [] =
    .fail fault

section

variable {Flag : Type} {af : AF} {mode : Mode Flag}

/-- With all arguments active some variable is out of range, whatever the number is,
and `enumerate_initial` does not get beyond its encoding. -/
theorem enumerateInitial_full_fails (h : af.WellFormed) (hLarge : ¬ 2 * af.args < 2 ^ 31) :
    ∃ fault, ∀ fuel, enumerateInitial fuel af (.full af.args) = .fail fault := by
  apply enumerateInitial_fails _ h.args_lt
  · by_cases hArgs : 2 ^ 31 ≤ af.args
    · exact Or.inl hArgs
    · exact Or.inr ⟨2 ^ 31 - af.args - 1, mem_full.mpr (by omega), by omega, by omega⟩
  · exact List.ne_nil_of_mem (mem_full.mpr (show 0 < af.args by omega))

/-- A variable out of range stops the search before it starts: its first call
already looks for initial sets. -/
theorem search_fails (h : af.WellFormed) (hLarge : ¬ 2 * af.args < 2 ^ 31)
    (hReturns : mode.returns [] (.full af.args) = none)
    (hCandidates : mode.candidates = fun fuel active => enumerateInitial fuel af active)
    (fuel : Nat) :
    ∃ fault, search af mode fuel (.full af.args) [] = .fail fault := by
  cases fuel with
  | zero => exact ⟨_, rfl⟩
  | succ fuel =>
      obtain ⟨fault, hFault⟩ := enumerateInitial_full_fails h hLarge
      exact ⟨fault, by simp only [search, hReturns, hCandidates, hFault, fail_bind]⟩

theorem stableMode_returns_large (hLarge : ¬ 2 * af.args < 2 ^ 31) :
    (stableMode af).returns [] (.full af.args) = none := by
  have hFull : (IterableBitSet.full af.args).array ≠ [] :=
    List.ne_nil_of_mem (mem_full.mpr (show 0 < af.args by omega))
  simp [stableMode, hFull]

/-- The sets of `enumerate_initial` can be taken, as they are sublists of the array
and free of conflicts. -/
theorem takes_of_candidates (h : af.WellFormed) (hSmall : 2 * af.args < 2 ^ 31)
    (hCandidates : mode.candidates = fun fuel active => enumerateInitial fuel af active) :
    mode.Takes Correct (fun active _ => Reached af active) (Layer af) := by
  intro fuel active sequence hReached
  rw [hCandidates]
  apply (enumerateInitial_returns h hReached hSmall fuel).mono
  intro out trace hPost
  obtain ⟨hQuiet, hOut⟩ := hPost
  refine ⟨hQuiet, ?_⟩
  rintro sets rfl set hSet -
  exact ⟨hOut.sublist set hSet, hOut.nonempty hSet, (hOut.initial hSet).admissibleWith.conflictFree⟩

/-- Unattacked arguments can be taken one by one, since an argument that attacks
itself is attacked. -/
theorem strongAdmissibleMode_takes (grounded : Bool) :
    (strongAdmissibleMode af grounded).Takes Correct (fun active _ => Reached af active)
    (Layer af) := by
  intro fuel active sequence hReached
  refine ⟨quiet_nil, ?_⟩
  rintro sets ⟨⟩ set hSet hSkip
  obtain ⟨a, ha, rfl⟩ := List.mem_map.mp hSet
  have hFree := (isAttacked_eq_false_iff hReached.valid a).mp hSkip
  refine ⟨List.singleton_sublist.mpr ha, by simp, ?_⟩
  rw [setOf_singleton]
  exact (hFree.isInitialWith ha).admissibleWith.conflictFree

end

section

variable {af : AF} (h : af.WellFormed)

/-- The set-up of each enumerator. This is the one place where the six are dealt
with one by one. -/
def Enumerator.setup : (enumerator : Enumerator) → enumerator.Setup af
  | .admissible preferred => {
      mode := admissibleMode af preferred
      tree := admissibleTree af.Attacks (preferred = true)
      abs := fun active _ => active.frame
      Good := fun active _ => Reached af active
      start_eq := fun fuel => by
        rw [start, enumerateSequencesAdmissible, enumerateSequencesAdmissibleFrom_eq]
      good := full_reached af
      reported_eq := by rw [full_frame, reported]
      implements := fun hSmall => admissibleMode_implements h hSmall preferred
      draws := admissibleMode_draws af preferred
      takes := fun hSmall => takes_of_candidates h hSmall rfl
      fails := fun hLarge => search_fails h hLarge rfl rfl }
  | .complete => {
      mode := completeMode af
      tree := completeTree af.Attacks
      abs := fun active _ => active.frame
      Good := fun active _ => Reached af active
      start_eq := fun fuel => by
        rw [start, enumerateSequencesComplete, enumerateSequencesCompleteFrom_eq]
      good := full_reached af
      reported_eq := by rw [full_frame, reported]
      implements := fun hSmall => completeMode_implements h hSmall
      draws := completeMode_draws af
      takes := fun hSmall => takes_of_candidates h hSmall rfl
      fails := fun hLarge => search_fails h hLarge rfl rfl }
  | .strongAdmissible grounded => {
      mode := strongAdmissibleMode af grounded
      tree := unattackedTree af.Attacks (grounded = true)
      abs := fun active _ => active.frame
      Good := fun active _ => Reached af active
      start_eq := fun fuel => by
        rw [start, enumerateSequencesStrongAdmissible, enumerateSequencesStrongAdmissibleFrom_eq]
      good := full_reached af
      reported_eq := by rw [full_frame, reported]
      implements := fun _ => strongAdmissibleMode_implements h grounded
      draws := strongAdmissibleMode_draws af grounded
      takes := fun _ => strongAdmissibleMode_takes grounded
      fails := fun hLarge => absurd trivial hLarge }
  | .stable => {
      mode := stableMode af
      tree := stableTree af.Attacks
      abs := fun active _ => active.frame
      Good := fun active _ => Reached af active
      start_eq := fun fuel => by
        rw [start, enumerateSequencesStable, enumerateSequencesStableFrom_eq]
      good := full_reached af
      reported_eq := by rw [full_frame, reported]
      implements := fun hSmall => stableMode_implements h hSmall
      draws := stableMode_draws af
      takes := fun hSmall => takes_of_candidates h hSmall rfl
      fails := fun hLarge => search_fails h hLarge (stableMode_returns_large hLarge) rfl }
  | .unchallenged maximal => {
      mode := unchallengedMode af maximal
      tree := unchallengedTree af.Attacks (maximal = true)
      abs := fun active _ => active.frame
      Good := fun active _ => Reached af active
      start_eq := fun fuel => by
        rw [start, enumerateSequencesUnchallenged, enumerateSequencesUnchallengedFrom_eq]
      good := full_reached af
      reported_eq := by rw [full_frame, reported]
      implements := fun hSmall => unchallengedMode_implements h hSmall maximal
      draws := unchallengedMode_draws af maximal
      takes := fun hSmall => takes_of_candidates h hSmall rfl
      fails := fun hLarge => search_fails h hLarge rfl rfl }
  | .argumentAdmissible argument => {
      mode := acceptanceMode af argument
      tree := acceptanceTree af.Attacks argument
      abs := fun active sequence => (active.frame, setOf (sequence.getLastD []))
      Good := fun active sequence => Reached af active ∧
        ConflictFree af.Attacks (setOf (sequence.getLastD []))
      start_eq := fun fuel => by
        rw [start, sequencesArgumentAdmissible, sequencesArgumentAdmissibleFrom_eq]
      good := ⟨full_reached af, by rintro a ⟨⟩⟩
      reported_eq := by rw [full_frame, reported, List.getLastD_nil, setOf_nil]
      implements := fun hSmall => acceptanceMode_implements h hSmall argument
      draws := acceptanceMode_draws af argument
      takes := fun hSmall => takes_of_candidates h hSmall rfl
      fails := fun hLarge => search_fails h hLarge rfl rfl }

end

end SerialisationSolver
