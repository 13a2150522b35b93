import SerialisationSolver.Correctness.Picks
import SerialisationSolver.Correctness.Runs

/-! What single runs of an enumerator answer, against any correct solver. The
calls of a run satisfy an invariant by which each set that was picked is given by
its members, so that the printed sequences are known as lists of numbers. -/
namespace SerialisationSolver

open Interaction Interaction.Program Satisfiability Argumentation

/-- What holds at every call. The array is the reduct by all sets picked so far, in
increasing order; the bitset may say more, and nothing is claimed of it here. -/
structure CallInvariant (af : AF) (active : IterableBitSet) (sequence : Sequence) : Prop where
  reached : Reached af active
  ordered : ∀ set ∈ sequence, set.Sublist (List.range af.args)
  nonempty : ∀ set ∈ sequence, set ≠ []
  conflictFree : ∀ set ∈ sequence, ∀ a ∈ set, ∀ b ∈ set, ¬ af.Attacks a b
  separate : sequence.Pairwise fun earlier set =>
    earlier.Disjoint set ∧ ∀ a ∈ earlier, ∀ b ∈ set, ¬ af.Attacks a b
  array : active.array = (List.range af.args).filter fun a =>
    ∀ set ∈ sequence, a ∉ set ∧ ∀ s ∈ set, ¬ af.Attacks s a

section Invariant

variable {af : AF} {active : IterableBitSet} {sequence : Sequence} {set : List Nat}

/-- The first call, where nothing was picked yet and all arguments are in the array. -/
theorem callInvariant_full (af : AF) : CallInvariant af (.full af.args) [] where
  reached := full_reached af
  ordered := by simp
  nonempty := by simp
  conflictFree := by simp
  separate := List.Pairwise.nil
  array := by simp [IterableBitSet.full]

/-- Which arguments are active at a call: those that no picked set contains or
attacks. -/
theorem CallInvariant.mem_array (hInv : CallInvariant af active sequence) {a : Nat} :
    a ∈ active.array ↔ a < af.args ∧
      ∀ set ∈ sequence, a ∉ set ∧ ∀ s ∈ set, ¬ af.Attacks s a := by
  rw [hInv.array, List.mem_filter, List.mem_range, decide_eq_true_eq]

theorem CallInvariant.array_sublist (hInv : CallInvariant af active sequence) :
    active.array.Sublist (List.range af.args) := by
  rw [hInv.array]
  exact List.filter_sublist

/-- Taking a set of the reduct keeps the invariant. That the sets stay apart from
each other is due to the arguments in the array, not to the bits. -/
theorem CallInvariant.getReduct (h : af.WellFormed) (hInv : CallInvariant af active sequence)
    (hLayer : Layer af active set) :
    CallInvariant af (getReduct af active set) (sequence ++ [set]) where
  reached := hInv.reached.getReduct h fun _ ha => hLayer.sublist.subset ha
  ordered := by
    have hNew : set.Sublist (List.range af.args) := hLayer.sublist.trans hInv.array_sublist
    exact List.forall_mem_append.mpr ⟨hInv.ordered, List.forall_mem_singleton.mpr hNew⟩
  nonempty :=
    List.forall_mem_append.mpr ⟨hInv.nonempty, List.forall_mem_singleton.mpr hLayer.nonempty⟩
  conflictFree :=
    List.forall_mem_append.mpr ⟨hInv.conflictFree,
      List.forall_mem_singleton.mpr hLayer.conflictFree⟩
  separate := by
    refine List.pairwise_append.mpr ⟨hInv.separate, List.pairwise_singleton _ _, ?_⟩
    intro earlier hEarlier set' hSet'
    rw [List.mem_singleton.mp hSet']
    -- The members of the new set are active, so no earlier set contains or attacks them.
    have hApart : ∀ b ∈ set, b ∉ earlier ∧ ∀ a ∈ earlier, ¬ af.Attacks a b := fun b hb =>
      (hInv.mem_array.mp (hLayer.sublist.subset hb)).2 earlier hEarlier
    exact ⟨fun a ha hb => (hApart a hb).1 ha, fun a ha b hb => (hApart b hb).2 a ha⟩
  array := by
    rw [getReduct_array h hInv.reached.valid fun _ ha => hLayer.sublist.subset ha, hInv.array,
      List.filter_filter]
    apply List.filter_congr
    intro a _
    simp only [List.mem_append, List.mem_singleton, ← Bool.decide_and, decide_eq_decide]
    grind

end Invariant

section Lists

variable {n : Nat}

/-- Sequences of increasing lists are known from their sets, since an increasing
list is determined by its members. -/
theorem map_setOf_injOn {s t : Sequence} (hs : ∀ set ∈ s, set.Sublist (List.range n))
    (ht : ∀ set ∈ t, set.Sublist (List.range n)) (hSame : s.map setOf = t.map setOf) : s = t := by
  induction s generalizing t with
  | nil => exact (List.map_eq_nil_iff.mp hSame.symm).symm
  | cons set s ih =>
      obtain ⟨set', t, rfl, hHead, hTail⟩ := List.map_eq_cons_iff.mp hSame.symm
      rw [List.forall_mem_cons] at hs ht
      rw [setOf_injOn List.nodup_range hs.1 ht.1 hHead.symm, ih hs.2 ht.2 hTail.symm]

end Lists

/-- A run from the full set, against a correct solver and with enough fuel. The
solver may have any state and may answer equal questions differently. -/
structure CorrectRun (af : AF) (enumerator : Enumerator) where
  {State : Type}
  oracle : SatOracle State
  state : State
  fuel : Nat
  correct : Admitted Correct oracle
  enough : 2 ^ af.args ≤ fuel

namespace CorrectRun

variable {af : AF} {enumerator : Enumerator} (run : CorrectRun af enumerator)

/-- Everything that the run asks, answers and shows, in this order. All that is said
about runs below is read off it or off the result. -/
def trace : Trace := ((enumerator.start run.fuel af (.full af.args)).run run.oracle run.state).trace

/-- How the run ends, which is without a fault if the variables are in range. -/
def result : Except Fault Unit :=
  ((enumerator.start run.fuel af (.full af.args)).run run.oracle run.state).result

/-- The sequences the run prints, as a set: their order and number are left out. -/
def sequences : Set Sequence := {sequence | sequence ∈ printed run.trace}

/-- The active arguments and the sequence of some call of the run: of the first one,
or of a recursive one, which the record shows. -/
def MakesCall (active : IterableBitSet) (sequence : Sequence) : Prop :=
  (active = .full af.args ∧ sequence = []) ∨
    ∃ before set, .event (.recurse before set active sequence) ∈ run.trace

/-- A run against a solver without a state, with just enough fuel. Concrete runs are
given in this way. -/
def ofSolver (af : AF) (enumerator : Enumerator) (solver : Query → Answer)
    (hCorrect : ∀ query, Correct query (solver query)) : CorrectRun af enumerator where
  oracle := fun (state : Unit) query => (solver query, state)
  state := ()
  fuel := 2 ^ af.args
  correct := fun _ query => hCorrect query
  enough := le_rfl

/-- There is a correct solver, so there is a run. Statements about all runs are
therefore not empty. -/
def ofBruteForce (af : AF) (enumerator : Enumerator) : CorrectRun af enumerator :=
  ofSolver af enumerator bruteForce bruteForce_correct

variable (h : af.WellFormed)
include h

/-- Nothing happens in a run whose variables are out of range: the first call fails
before it asks or shows anything. -/
theorem trace_eq_nil (hFits : ¬ enumerator.Fits af) : run.trace = [] := by
  have setup := enumerator.setup h
  obtain ⟨fault, hFault⟩ := setup.fails hFits run.fuel
  rw [trace, setup.start_eq, hFault]
  rfl

/-- The record of a run, call by call. The invariant holds at each of them, and each
set that is taken is a layer of the reduct it is taken from. -/
theorem callRecord : CallRecord af (CallInvariant af) (Layer af) [] run.trace := by
  by_cases hFits : enumerator.Fits af
  · have setup := enumerator.setup h
    rw [trace, setup.start_eq]
    have hTakes : setup.mode.Takes Correct (CallInvariant af) (Layer af) :=
      fun fuel active sequence hInv => setup.takes hFits fuel active sequence hInv.reached
    exact (search_calls hTakes (fun _ _ _ hInv hLayer => hInv.getReduct h hLayer) run.fuel
      (callInvariant_full af)).run run.correct run.state
  · rw [run.trace_eq_nil h hFits]
    exact quiet_nil.callRecord

/-- The invariant holds at every call of the run, the first one included. -/
theorem invariant {active : IterableBitSet} {sequence : Sequence}
    (hCall : run.MakesCall active sequence) :
    CallInvariant af active sequence := by
  cases hCall with
  | inl hFirst =>
      obtain ⟨rfl, rfl⟩ := hFirst
      exact callInvariant_full af
  | inr hLater =>
      obtain ⟨before, set, hEvent⟩ := hLater
      obtain ⟨earlier, hInv, hLayer, rfl, rfl⟩ := (run.callRecord h).recurses _ _ _ _ hEvent
      exact hInv.getReduct h hLayer

/-- A printed sequence is the sequence of some call, so that what holds at calls
holds of it. -/
theorem exists_call {sequence : Sequence} (hPrinted : sequence ∈ run.sequences) :
    ∃ active, run.MakesCall active sequence := by
  cases (run.callRecord h).prints sequence hPrinted with
  | inl hFirst => exact ⟨.full af.args, Or.inl ⟨rfl, hFirst⟩⟩
  | inr hLater =>
      obtain ⟨before, set, active, hEvent⟩ := hLater
      exact ⟨active, Or.inr ⟨before, set, hEvent⟩⟩

/-- If the variables are out of range then only the first call is made, on the full
set and with the empty sequence. -/
theorem call_eq_full (hFits : ¬ enumerator.Fits af) {active : IterableBitSet} {sequence : Sequence}
    (hCall : run.MakesCall active sequence) : active = .full af.args ∧ sequence = [] := by
  apply hCall.resolve_right
  rw [run.trace_eq_nil h hFits]
  simp

/-- No sequence is printed twice in a run, also not with its members in another
order. -/
theorem printed_nodup : ((printed run.trace).map (List.map setOf)).Nodup :=
  ((enumerator.start_prints h run.enough).run run.correct run.state).2

/-- What a run prints, as sequences of sets: what the tree of the enumerator
reports, or nothing if the variables are out of range. -/
theorem printedSets_eq :
    printedSets run.trace = {ls | enumerator.Fits af ∧ ls ∈ enumerator.reported af} :=
  ((enumerator.start_prints h run.enough).run run.correct run.state).1

/-- The same for variables in range, which is the case that the statements about
frameworks of a reasonable size use. -/
theorem printedSets_of_fits (hFits : enumerator.Fits af) :
    printedSets run.trace = enumerator.reported af := by
  ext ls
  rw [run.printedSets_eq h]
  exact and_iff_right hFits

/-- The printed sequences are those that the tree reports, each set of a sequence as
the increasing list of its members. -/
theorem mem_sequences {sequence : Sequence} : sequence ∈ run.sequences ↔
    (∀ set ∈ sequence, set.Sublist (List.range af.args)) ∧
      enumerator.Fits af ∧ sequence.map setOf ∈ enumerator.reported af := by
  have hOrdered : ∀ other ∈ run.sequences, ∀ set ∈ other, set.Sublist (List.range af.args) := by
    intro other hPrinted
    obtain ⟨active, hCall⟩ := run.exists_call h hPrinted
    exact (run.invariant h hCall).ordered
  have hIff : ∀ ls, ls ∈ printedSets run.trace ↔ enumerator.Fits af ∧ ls ∈ enumerator.reported af :=
    Set.ext_iff.mp (run.printedSets_eq h)
  rw [← hIff]
  constructor
  · intro hPrinted
    exact ⟨hOrdered sequence hPrinted, List.mem_map_of_mem hPrinted⟩
  · intro hBoth
    obtain ⟨hSequence, hMem⟩ := hBoth
    obtain ⟨other, hOther, hSame⟩ := List.mem_map.mp hMem
    rwa [← map_setOf_injOn (hOrdered other hOther) hSequence hSame]

/-- Every sequence that the tree reports is printed in some form, which is the one
with increasing lists. -/
theorem exists_sequence (hFits : enumerator.Fits af) {ls : List (Set Nat)}
    (hReported : ls ∈ enumerator.reported af) :
    ∃ sequence ∈ run.sequences, sequence.map setOf = ls := by
  have hPrinted : ls ∈ printedSets run.trace := by
    rw [run.printedSets_eq h]
    exact ⟨hFits, hReported⟩
  exact List.mem_map.mp hPrinted

end CorrectRun

theorem map_setOf_singletons (picks : List Nat) :
    (picks.map ([·])).map setOf = picks.map ({·}) := by
  simp [setOf_singleton]

theorem singletons_sublist {n : Nat} {picks : List Nat} (hRange : ∀ a ∈ picks, a < n) :
    ∀ set ∈ picks.map ([·]), set.Sublist (List.range n) := by
  intro set hSet
  obtain ⟨a, ha, rfl⟩ := List.mem_map.mp hSet
  exact List.singleton_sublist.mpr (List.mem_range.mpr (hRange a ha))

/-- Arguments that can be picked one after the other are printed as a sequence of
single arguments, as each of them is initial where it is picked. -/
theorem Picks.mem_sequences {af : AF} (h : af.WellFormed) (hSmall : 2 * af.args < 2 ^ 31)
    {picks : List Nat} (hPicks : Picks af (.full af.args) picks)
    (run : CorrectRun af (.admissible false)) :
    picks.map ([·]) ∈ run.sequences := by
  have hChain := hPicks.staleChain h
  have hRange : ∀ a ∈ picks, a < af.args := fun a ha =>
    unionOf_subset_active hChain ⟨{a}, List.mem_map_of_mem ha, Set.mem_singleton a⟩
  refine (run.mem_sequences h).mpr ⟨singletons_sublist hRange, hSmall, ?_⟩
  rw [map_setOf_singletons]
  exact mem_reported_admissible.mpr ⟨hChain, by simp⟩

end SerialisationSolver
