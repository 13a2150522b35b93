import SerialisationSolver.Correctness.Encoding
import SerialisationSolver.Interaction.Machine
import SerialisationSolver.Search.Blocking

/-! The two loops of `src/EE-IT.cpp` as a machine whose labels are what an
execution asks and emits. The machine says what each question contains and what
each answer changes; blocking clauses are the blocked sets of `Blocking`. -/
namespace SerialisationSolver

open Interaction Satisfiability Argumentation

/-- What the two loops have done so far. `current` is the last set found and not yet
pushed; `stuck` says that the last question had no model. -/
structure ModelSearch where
  blocked : List (List Nat)
  reported : List (List Nat)
  current : Option (List Nat)
  stuck : Bool

namespace ModelSearch

def start : ModelSearch := ⟨[], [], none, false⟩

/-- What is assumed while the current set is being lowered: everything else stays
rejected. -/
def assumptions (af : AF) (active : IterableBitSet) : Option (List Nat) → List Int
  | none => []
  | some set => (active.array.filter (· ∉ set)).map fun a => -af.acceptedVar a

/-- The question that is asked in a state: the encoding, one clause for each set
found so far, and what is assumed for the current set. -/
def query (af : AF) (active : IterableBitSet) (st : ModelSearch) : Query where
  clauses := encoding af active ++ st.blocked.map (minimizationClause af)
  assumptions := assumptions af active st.current

/-- A model was found: the set that it accepts is blocked from now on and becomes
the current one. -/
def found (st : ModelSearch) (set : List Nat) : ModelSearch :=
  { st with blocked := st.blocked ++ [set], current := some set }

/-- The current set could not be lowered and is pushed; the search is ready for the
next one. -/
def report (st : ModelSearch) (set : List Nat) : ModelSearch :=
  { st with reported := st.reported ++ [set], current := none, stuck := false }

/-- The steps of the two loops. An answer with a model lowers the set or begins a
new one, an answer without a model makes the search stuck, and then the current set
is pushed. -/
inductive Step (af : AF) (active : IterableBitSet) :
    ModelSearch → Entry Query Answer Event → ModelSearch → Prop
  | found {st : ModelSearch} {answer : Answer} (hStuck : st.stuck = false) (hRes : answer.res = 10)
      (hModel : models answer.vals (st.query af active) = true) :
      Step af active st (.asked (st.query af active) answer)
        (st.found (acceptedBy active answer.vals))
  | stuck {st : ModelSearch} {answer : Answer} (hStuck : st.stuck = false) (hRes : answer.res = 20)
      (hNone : ∀ vals, models vals (st.query af active) = false) :
      Step af active st (.asked (st.query af active) answer) { st with stuck := true }
  | push {st : ModelSearch} {set : List Nat} (hStuck : st.stuck = true)
      (hCurrent : st.current = some set) :
      Step af active st (.event (.push set)) (st.report set)

/-- The state of the enumeration that the search stands for, with sets in place of
lists. -/
def blocking (st : ModelSearch) : Blocking.State (Set Nat) where
  blocked := st.blocked.map setOf
  reported := st.reported.map setOf
  current := st.current.map setOf

/-- What is enumerated: the sets that a model of the encoding accepts. Whether these
are the admissible ones depends on the literals. -/
def Wanted (af : AF) (active : IterableBitSet) (S : Set Nat) : Prop :=
  ∃ vals, (∀ clause ∈ encoding af active, clauseHolds vals clause = true) ∧
    setOf (acceptedBy active vals) = S

/-- No open set lies below the current one, and none is open at all if there is no
current one. -/
def Exhausted (af : AF) (active : IterableBitSet) (st : ModelSearch) : Prop :=
  ∀ S, Blocking.Open (Wanted af active) st.blocking S →
    ¬ ∀ y, st.blocking.current = some y → S ≤ y

/-- The invariant of the enumeration, and besides that all lists are parts of the
array in its order, so that each stands for its set. -/
structure Invariant (af : AF) (active : IterableBitSet) (st : ModelSearch) : Prop where
  blocking : Blocking.Invariant (Wanted af active) st.blocking
  blocked_sublist : ∀ set ∈ st.blocked, set.Sublist active.array
  current_sublist : ∀ set, st.current = some set → set.Sublist active.array
  reported_sublist : ∀ set ∈ st.reported, set.Sublist active.array
  exhausted : st.stuck = true → Exhausted af active st

@[simp] theorem blocking_start : blocking start = Blocking.start := rfl

@[simp] theorem blocking_found (st : ModelSearch) (set : List Nat) :
    (st.found set).blocking = st.blocking.found (setOf set) := by
  simp [blocking, found, Blocking.State.found]

@[simp] theorem blocking_report (st : ModelSearch) (set : List Nat) :
    (st.report set).blocking = st.blocking.report (setOf set) := by
  simp [blocking, report, Blocking.State.report]

theorem invariant_start (af : AF) (active : IterableBitSet) : Invariant af active start where
  blocking := Blocking.invariant_start
  blocked_sublist := by simp [start]
  current_sublist := by simp [start]
  reported_sublist := by simp [start]
  exhausted := by simp [start]

theorem Wanted.subset {af : AF} {active : IterableBitSet} {S : Set Nat} (h : Wanted af active S) :
    S ⊆ active.actives := by
  obtain ⟨vals, _, rfl⟩ := h
  exact fun a ha => (mem_acceptedBy.mp ha).1

/-- Only finitely many sets are wanted, as they consist of active arguments. -/
theorem wanted_finite (af : AF) (active : IterableBitSet) : {S | Wanted af active S}.Finite :=
  active.actives_finite.powerset.subset fun _ hS => hS.subset

section Step

variable {af : AF} {active : IterableBitSet} {st : ModelSearch} (hActive : active.Valid af)
  (hValid : LiteralsValid af active)
include hActive hValid

/-- A model of the question accepts an open set below the current one: the clauses
of the sets found rule out everything above them, and the assumptions everything not
below the current set. -/
theorem models_query_iff (hInv : Invariant af active st) (vals : Valuation) :
    models vals (st.query af active) = true ↔
      (∀ clause ∈ encoding af active, clauseHolds vals clause = true) ∧
      (∀ set ∈ st.blocked, ¬ setOf set ⊆ setOf (acceptedBy active vals)) ∧
      ∀ set, st.current = some set → setOf (acceptedBy active vals) ⊆ setOf set := by
  have hBlocked : (∀ clause ∈ st.blocked.map (minimizationClause af),
    clauseHolds vals clause = true) ↔
      ∀ set ∈ st.blocked, ¬ setOf set ⊆ setOf (acceptedBy active vals) := by
    rw [List.forall_mem_map]
    apply forall₂_congr
    intro set hSet
    exact minimizationClause_holds hActive hValid
      (fun a ha => (hInv.blocked_sublist set hSet).subset ha) vals
  have hAssumed : (∀ lit ∈ assumptions af active st.current, litHolds vals lit = true) ↔
      ∀ set, st.current = some set → setOf (acceptedBy active vals) ⊆ setOf set := by
    cases st.current with
    | none => simp [assumptions]
    | some set =>
        simp only [assumptions, List.forall_mem_map, List.mem_filter, decide_eq_true_eq, and_imp,
          Option.some.injEq, forall_eq']
        constructor
        · intro h a hAccepted
          obtain ⟨ha, hTrue⟩ := mem_acceptedBy.mp hAccepted
          by_contra hNot
          have hFalse := h a ha hNot
          simp [hValid.holds_not_accepted (hActive.covers a ha), hTrue] at hFalse
        · intro h a ha hNot
          rw [hValid.holds_not_accepted (hActive.covers a ha), Bool.not_eq_true']
          by_contra hTrue
          exact hNot (h (mem_acceptedBy.mpr ⟨ha, by simpa using hTrue⟩))
  rw [models_iff, query, List.forall_mem_append, hBlocked, hAssumed, and_assoc]

/-- The same in the words of the enumeration, which the step for a found set needs. -/
theorem open_of_models (hInv : Invariant af active st) {vals : Valuation}
    (hModel : models vals (st.query af active) = true) :
    Blocking.Open (Wanted af active) st.blocking (setOf (acceptedBy active vals)) ∧
      ∀ y, st.blocking.current = some y → setOf (acceptedBy active vals) ≤ y := by
  obtain ⟨hEncoding, hBlocked, hBelow⟩ := (models_query_iff hActive hValid hInv vals).mp hModel
  refine ⟨⟨⟨vals, hEncoding, rfl⟩, ?_⟩, ?_⟩
  · intro b hb
    obtain ⟨set, hSet, rfl⟩ := List.mem_map.mp hb
    exact hBlocked set hSet
  · intro y hy
    obtain ⟨set, hSet, rfl⟩ := Option.map_eq_some_iff.mp hy
    exact hBelow set hSet

/-- If the question has no model, nothing open lies below the current set, since
every wanted set is accepted by some model. -/
theorem exhausted_of_unsat (hInv : Invariant af active st)
    (hNone : ∀ vals, models vals (st.query af active) = false) : Exhausted af active st := by
  rintro S ⟨⟨vals, hEncoding, rfl⟩, hUnblocked⟩ hBelow
  have hModel : models vals (st.query af active) = true := by
    refine (models_query_iff hActive hValid hInv vals).mpr ⟨hEncoding, ?_, ?_⟩
    · intro set hSet
      exact hUnblocked (setOf set) (List.mem_map_of_mem hSet)
    · intro set hSet
      exact hBelow (setOf set) (Option.map_eq_some_iff.mpr ⟨set, hSet, rfl⟩)
  simp [hNone] at hModel

/-- Each of the three steps keeps the invariant: the first two by the rules of the
enumeration, and the third because the search was stuck. -/
theorem Invariant.step (label : Entry Query Answer Event) (st' : ModelSearch)
    (hInv : Invariant af active st) (hStep : Step af active st label st') :
    Invariant af active st' := by
  cases hStep with
  | @found answer hStuck hRes hModel =>
      obtain ⟨hOpen, hBelow⟩ := open_of_models hActive hValid hInv hModel
      have hSublist : (acceptedBy active answer.vals).Sublist active.array := List.filter_sublist
      refine ⟨?_, ?_, ?_, hInv.reported_sublist, ?_⟩
      · rw [blocking_found]
        exact hInv.blocking.found hOpen hBelow
      · intro set hSet
        cases List.mem_append.mp hSet with
        | inl hSet => exact hInv.blocked_sublist set hSet
        | inr hSet =>
            rw [List.mem_singleton.mp hSet]
            exact hSublist
      · rintro set ⟨⟩
        exact hSublist
      · intro hStuck'
        exact absurd (hStuck.symm.trans hStuck') (by decide)
  | stuck hStuck hRes hNone =>
      have hExhausted := exhausted_of_unsat hActive hValid hInv hNone
      exact ⟨hInv.blocking, hInv.blocked_sublist, hInv.current_sublist, hInv.reported_sublist,
        fun _ => hExhausted⟩
  | @push set hStuck hCurrent =>
      refine ⟨?_, hInv.blocked_sublist, by rintro set ⟨⟩, ?_, by rintro ⟨⟩⟩
      · rw [blocking_report]
        have hHere : st.blocking.current = some (setOf set) :=
          Option.map_eq_some_iff.mpr ⟨set, hCurrent, rfl⟩
        apply hInv.blocking.report hHere
        intro S hSub hOpen
        apply hInv.exhausted hStuck S hOpen
        intro y hy
        obtain rfl := Option.some.inj (hHere.symm.trans hy)
        exact hSub
      · intro reported hReported
        cases List.mem_append.mp hReported with
        | inl hReported => exact hInv.reported_sublist reported hReported
        | inr hReported =>
            rw [List.mem_singleton.mp hReported]
            exact hInv.current_sublist set hCurrent

theorem invariant_of_runs {trace : Trace} (hRuns : Runs (Step af active) start trace st) :
    Invariant af active st :=
  hRuns.preserves (fun _ label st' hInv hStep => hInv.step hActive hValid label st' hStep)
    (invariant_start af active)

end Step

/-- Wanted sets are admissible with stale helpers, as soon as the literals are
valid. -/
theorem Wanted.sound {af : AF} {active : IterableBitSet} (hActive : active.Valid af)
    (hValid : LiteralsValid af active) {S : Set Nat} (h : Wanted af active S) :
    S.Nonempty ∧ AdmissibleWith af.Attacks active.actives active.stales S := by
  obtain ⟨vals, hEncoding, rfl⟩ := h
  exact encoding_sound hActive hValid hEncoding

/-- While the literals fit, the wanted sets are those the encoding is about: the
non-empty ones that are admissible with stale helpers. -/
theorem wanted_iff {af : AF} (h : af.WellFormed) {active : IterableBitSet}
    (hActive : active.Valid af) (hFit : LiteralsFit af active) (S : Set Nat) : Wanted af active S ↔
      S.Nonempty ∧ AdmissibleWith af.Attacks active.actives active.stales S := by
  classical
  refine ⟨Wanted.sound hActive hFit.valid, fun hS => ?_⟩
  have hList : setOf (active.array.filter (· ∈ S)) = S := by
    ext a
    have hActives : a ∈ S → a ∈ active.array := fun ha => hS.2.subset ha
    simpa using hActives
  refine ⟨acceptingValuation af active (active.array.filter (· ∈ S)), ?_, ?_⟩
  · apply encoding_complete hActive hFit h <;> rw [hList]
    · exact hS.1
    · exact hS.2
  · rw [acceptedBy_acceptingValuation hActive fun a ha => List.mem_of_mem_filter ha, hList]

theorem minimal_wanted_iff {af : AF} (h : af.WellFormed) {active : IterableBitSet}
    (hActive : active.Valid af) (hFit : LiteralsFit af active) (S : Set Nat) :
    Minimal (Wanted af active) S ↔ IsInitialWith af.Attacks active.actives active.stales S := by
  have hSame : Wanted af active = fun T =>
      T.Nonempty ∧ AdmissibleWith af.Attacks active.actives active.stales T :=
    funext fun T => propext (wanted_iff h hActive hFit T)
  rw [hSame, IsInitialWith]

/-- Nothing more will be asked: there was no model, and there is no set left to be
pushed. -/
def Halted (st : ModelSearch) : Prop := st.stuck = true ∧ st.current = none

/-- In the end the minimal wanted sets have been reported, each of them once,
whatever models the solver has chosen. -/
theorem Invariant.halted {af : AF} {active : IterableBitSet} {st : ModelSearch}
    (hInv : Invariant af active st) (hHalted : st.Halted) :
    (st.reported.map setOf).Nodup ∧ ∀ S, S ∈ st.reported.map setOf ↔
      Minimal (Wanted af active) S := by
  have hNone : st.blocking.current = none := by simp [ModelSearch.blocking, hHalted.2]
  refine ⟨hInv.blocking.nodup, hInv.blocking.exact hNone fun S hOpen => ?_⟩
  exact hInv.exhausted hHalted.1 S hOpen fun y hy => absurd (hNone.symm.trans hy) (by simp)

/-- Found models are the steps that are paid for. Each pass of a loop has one of
them, apart from the last. -/
def cost : Entry Query Answer Event → Nat
  | .asked _ answer => if answer.res = 10 then 1 else 0
  | .event _ => 0

/-- How many sets can still be found. Every model makes this less by one at least. -/
noncomputable def room (af : AF) (active : IterableBitSet) (st : ModelSearch) : Nat :=
  Blocking.room (Wanted af active) st.blocking

/-- At the beginning these are less than all sets of active arguments, since the
empty set is not wanted. -/
theorem room_start_lt {af : AF} {active : IterableBitSet} (hActive : active.Valid af)
    (hValid : LiteralsValid af active) : room af active start < 2 ^ active.array.length := by
  have hSub : {S | Blocking.Open (Wanted af active) start.blocking S} ⊆
      ((active.array.toFinset.powerset.erase ∅).image (fun s : Finset Nat => (s : Set Nat)) :
        Finset (Set Nat)) := by
    intro S hOpen
    obtain ⟨hWanted, _⟩ := hOpen
    obtain ⟨hNonempty, hAdm⟩ := hWanted.sound hActive hValid
    have hFinite : S.Finite := active.actives_finite.subset hAdm.subset
    simp only [Finset.coe_image, Set.mem_image, Finset.mem_coe, Finset.mem_erase,
      Finset.mem_powerset]
    refine ⟨hFinite.toFinset, ⟨?_, ?_⟩, hFinite.coe_toFinset⟩
    · exact (Set.Finite.toFinset_nonempty hFinite).mpr hNonempty |>.ne_empty
    · intro a ha
      exact List.mem_toFinset.mpr (hAdm.subset (hFinite.mem_toFinset.mp ha))
  calc room af active start
      ≤ ((active.array.toFinset.powerset.erase ∅).image
        (fun s : Finset Nat => (s : Set Nat))).card := by
        rw [← Set.ncard_coe_finset]
        exact Set.ncard_le_ncard hSub (Finset.finite_toSet _)
    _ ≤ (active.array.toFinset.powerset.erase ∅).card := Finset.card_image_le
    _ < active.array.toFinset.powerset.card :=
        Finset.card_erase_lt_of_mem (Finset.empty_mem_powerset _)
    _ = 2 ^ active.array.toFinset.card := Finset.card_powerset _
    _ ≤ 2 ^ active.array.length := Nat.pow_le_pow_right (by decide) (List.toFinset_card_le _)

/-- A step pays for its model with a set that is no longer open, namely the one that
was found. -/
theorem Step.room_add_cost_le {af : AF} {active : IterableBitSet} (hActive : active.Valid af)
    (hValid : LiteralsValid af active) {st st' : ModelSearch} {label : Entry Query Answer Event}
    (hInv : Invariant af active st) (hStep : Step af active st label st') :
    room af active st' + cost label ≤ room af active st := by
  cases hStep with
  | found hStuck hRes hModel =>
      have hOpen := (open_of_models hActive hValid hInv hModel).1
      simp only [room, blocking_found, cost, hRes, if_true]
      exact Blocking.room_found_lt (wanted_finite af active) hOpen
  | stuck hStuck hRes hNone =>
      simp only [cost, hRes]
      exact le_rfl
  | push hStuck hCurrent =>
      simp only [room, blocking_report, cost]
      exact (Blocking.room_report _).le

/-- A run pays for every model with a set that can no longer be found, so that the
number of models is bounded before any is found. -/
theorem cost_lt {af : AF} {active : IterableBitSet} (hActive : active.Valid af)
    (hValid : LiteralsValid af active) {st : ModelSearch} {trace : Trace}
    (hRuns : Runs (Step af active) start trace st) :
    (trace.map cost).sum < 2 ^ active.array.length := by
  have hPaid :=
    hRuns.cost_le (fun _ label st' hInv hStep => hInv.step hActive hValid label st' hStep)
    cost (room af active) (fun _ _ _ hInv hStep => hStep.room_add_cost_le hActive hValid hInv)
    (invariant_start af active)
  have hRoom := room_start_lt hActive hValid
  omega

/-- The sets that the models in a record accept, in order. This is what the blocking
clauses of a later question are made of. -/
def foundSets (active : IterableBitSet) (trace : Trace) : List (List Nat) :=
  trace.filterMap fun entry => match entry with
    | .asked _ answer => if answer.res = 10 then some (acceptedBy active answer.vals) else none
    | .event _ => none

@[simp] theorem foundSets_nil (active : IterableBitSet) : foundSets active [] = [] := rfl

@[simp] theorem foundSets_append (active : IterableBitSet) (trace later : Trace) :
    foundSets active (trace ++ later) = foundSets active trace ++ foundSets active later :=
  List.filterMap_append

@[simp] theorem foundSets_asked (active : IterableBitSet) (query : Query) (answer : Answer)
    (trace : Trace) : foundSets active (.asked query answer :: trace) =
      if answer.res = 10 then acceptedBy active answer.vals :: foundSets active trace
      else foundSets active trace := by
  unfold foundSets
  split_ifs with hRes <;> simp [hRes]

@[simp] theorem foundSets_event (active : IterableBitSet) (event : Event) (trace : Trace) :
    foundSets active (.event event :: trace) = foundSets active trace := rfl

/-- Found models are counted by their cost, so that bounds on the one are bounds on
the other. -/
theorem foundSets_length (active : IterableBitSet) (trace : Trace) :
    (foundSets active trace).length = (trace.map cost).sum := by
  induction trace with
  | nil => rfl
  | cons entry trace ih =>
      cases entry with
      | asked query answer =>
          rw [foundSets_asked, List.map_cons, List.sum_cons, cost, ← ih]
          split_ifs
          · rw [List.length_cons, Nat.add_comm]
          · rw [Nat.zero_add]
      | event event => simpa [cost] using ih

/-- Every model found is blocked at once, and nothing else ever is. -/
theorem blocked_eq {af : AF} {active : IterableBitSet} {st st' : ModelSearch} {trace : Trace}
    (hRuns : Runs (Step af active) st trace st') :
    st'.blocked = st.blocked ++ foundSets active trace := by
  induction hRuns with
  | nil => simp
  | cons hFirst _ ih =>
      rw [ih]
      cases hFirst with
      | found hStuck hRes hModel => simp [found, hRes]
      | stuck hStuck hRes hNone => simp [hRes]
      | push hStuck hCurrent => simp [report]

theorem blocked_length {af : AF} {active : IterableBitSet} {st st' : ModelSearch} {trace : Trace}
    (hRuns : Runs (Step af active) st trace st') :
    st'.blocked.length = st.blocked.length + (trace.map cost).sum := by
  rw [blocked_eq hRuns, List.length_append, foundSets_length]

end ModelSearch

end SerialisationSolver
