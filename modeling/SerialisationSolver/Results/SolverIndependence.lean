import SerialisationSolver.Correctness.Answers
import SerialisationSolver.Correctness.Picks

/-! Two runs against different solvers answer the same. The order of what they
find may differ at every level, so the answers are compared as sets. -/
namespace SerialisationSolver

open Interaction Interaction.Program Satisfiability Argumentation

/-- The enumerators that ask the solver: all but the one by unattacked arguments. -/
def Enumerator.Asks : Enumerator → Prop
  | .strongAdmissible _ => False
  | _ => True

theorem Enumerator.fits_iff {af : AF} {enumerator : Enumerator} (hAsks : enumerator.Asks) :
    enumerator.Fits af ↔ 2 * af.args < 2 ^ 31 := by
  cases enumerator with
  | strongAdmissible grounded => exact hAsks.elim
  | admissible preferred => exact Iff.rfl
  | complete => exact Iff.rfl
  | stable => exact Iff.rfl
  | unchallenged maximal => exact Iff.rfl
  | argumentAdmissible argument => exact Iff.rfl

/-- How a call of `enumerate_initial` ends, up to the order of the sets. -/
def returned {State : Type} (fuel : Nat) (af : AF) (active : IterableBitSet)
    (oracle : SatOracle State) (state : State) : Except Fault (Set (List Nat)) :=
  ((enumerateInitial fuel af active).run oracle state).result.map fun sets => {set | set ∈ sets}

/-- Calls against any two correct solvers end the same way, in the same state and
with enough fuel. -/
def ReturnsSame (af : AF) (active : IterableBitSet) : Prop :=
  ∀ (State State' : Type) (oracle : SatOracle State) (oracle' : SatOracle State') (state : State)
    (state' : State') (fuel fuel' : Nat), Admitted Correct oracle → Admitted Correct oracle' →
    2 ^ active.array.length ≤ fuel → 2 ^ active.array.length ≤ fuel' →
    returned fuel af active oracle state = returned fuel' af active oracle' state'

/-- A result that every call ends with is the same for any two calls. -/
theorem returnsSame_of_result {af : AF} {active : IterableBitSet}
    (result : Except Fault (Set (List Nat)))
    (hAll : ∀ fuel, 2 ^ active.array.length ≤ fuel →
      Ensures Correct (enumerateInitial fuel af active)
        (fun out _ => out.map (fun sets => {set | set ∈ sets}) = result)) :
    ReturnsSame af active := by
  intro State State' oracle oracle' state state' fuel fuel' hOracle hOracle' hFuel hFuel'
  have hFirst := (hAll fuel hFuel).run hOracle state
  have hSecond := (hAll fuel' hFuel').run hOracle' state'
  exact hFirst.trans hSecond.symm

/-- The sets are known as lists, since each stands in the order of the array and the
array is increasing. -/
theorem InitialSets.mem_list_iff {af : AF} {active : IterableBitSet} {sets : List (List Nat)}
    (hSets : InitialSets af active sets) (hOrdered : active.array.Sublist (List.range af.args))
    {set : List Nat} : set ∈ sets ↔ set.Sublist active.array ∧
      IsInitialWith af.Attacks active.actives active.stales (setOf set) := by
  constructor
  · intro hSet
    exact ⟨hSets.sublist set hSet, hSets.initial hSet⟩
  · intro hBoth
    obtain ⟨hSublist, hInitial⟩ := hBoth
    obtain ⟨other, hOther, hSame⟩ := List.mem_map.mp ((hSets.mem_iff _).mpr hInitial)
    have hSublist' := (hSets.sublist other hOther).trans hOrdered
    rwa [← setOf_injOn List.nodup_range hSublist' (hSublist.trans hOrdered) hSame]

/-- Where the literals fit, the sets are the initial sets, and these are a matter of
the state alone. -/
theorem returnsSame_of_invariant {af : AF} (h : af.WellFormed) (hSmall : 2 * af.args < 2 ^ 31)
    {active : IterableBitSet} {sequence : Sequence} (hInv : CallInvariant af active sequence) :
    ReturnsSame af active := by
  apply returnsSame_of_result (.ok {set | set.Sublist active.array ∧
    IsInitialWith af.Attacks active.actives active.stales (setOf set)})
  intro fuel hFuel
  apply (enumerateInitial_initialSets h hInv.reached hSmall hFuel).mono
  intro out trace hPost
  obtain ⟨-, sets, rfl, hSets⟩ := hPost
  refine congrArg Except.ok (Set.ext fun set => ?_)
  exact hSets.mem_list_iff hInv.array_sublist

/-- Otherwise only the first call is made, and it fails in the same way whatever the
solver is. -/
theorem returnsSame_full {af : AF} (h : af.WellFormed) (hLarge : ¬ 2 * af.args < 2 ^ 31) :
    ReturnsSame af (.full af.args) := by
  obtain ⟨fault, hFault⟩ := enumerateInitial_full_fails h hLarge
  apply returnsSame_of_result (.error fault)
  intro fuel _
  rw [hFault]
  rfl

/-- Runs against two correct solvers print the same sequences, and at each of their
calls `enumerate_initial` returns the same sets. The order may differ in both cases. -/
theorem solver_independence {af : AF} (h : af.WellFormed) {enumerator : Enumerator}
    (hAsks : enumerator.Asks) (run run' : CorrectRun af enumerator) :
    run.sequences = run'.sequences ∧
      ∀ active sequence, run.MakesCall active sequence → ReturnsSame af active := by
  constructor
  · ext sequence
    rw [run.mem_sequences h, run'.mem_sequences h]
  · intro active sequence hCall
    by_cases hSmall : 2 * af.args < 2 ^ 31
    · exact returnsSame_of_invariant h hSmall (run.invariant h hCall)
    · have hFits : ¬ enumerator.Fits af := fun hFits =>
        hSmall ((Enumerator.fits_iff hAsks).mp hFits)
      obtain ⟨rfl, -⟩ := run.call_eq_full h hFits hCall
      exact returnsSame_full h hSmall

theorem bruteForce_reverse_correct (query : Query) :
    Correct query (bruteForce ⟨query.clauses.reverse, query.assumptions⟩) := by
  have hCorrect := bruteForce_correct ⟨query.clauses.reverse, query.assumptions⟩
  simpa only [Correct, models, List.all_reverse] using hCorrect

/-- A run whose solver looks at the clauses in reverse order and so finds other
models. -/
def CorrectRun.ofReversed (af : AF) (enumerator : Enumerator) : CorrectRun af enumerator :=
  ofSolver af enumerator (fun query => bruteForce ⟨query.clauses.reverse, query.assumptions⟩)
    bruteForce_reverse_correct

theorem solver_independence_overlap :
    (CorrectRun.ofBruteForce overlap .complete).sequences =
        (CorrectRun.ofReversed overlap .complete).sequences ∧
      ReturnsSame overlap (.full 5) := by
  obtain ⟨hSame, hReturns⟩ := solver_independence overlap_wellFormed
    (show Enumerator.Asks .complete from trivial)
    (CorrectRun.ofBruteForce overlap .complete) (CorrectRun.ofReversed overlap .complete)
  exact ⟨hSame, hReturns _ [] (Or.inl ⟨rfl, rfl⟩)⟩

end SerialisationSolver
