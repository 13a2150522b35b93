import SerialisationSolver.Correctness.Recursion
import SerialisationSolver.Correctness.Answers

/-! Both loops of `enumerate_initial` end, and so does every recursion. Neither
loop counts anything: each model found closes all sets above the set it accepts. -/
namespace SerialisationSolver

open Interaction Interaction.Program Satisfiability

/-- What the record of a call shows about its loops: each model accepts something,
less than the model before it in the same inner loop, and is excluded from all later
questions. Models that follow each other directly belong to the same inner loop. -/
structure LoopRecord (af : AF) (active : IterableBitSet) (trace : Trace) : Prop where
  nonempty : ∀ query answer, .asked query answer ∈ trace → answer.res = 10 →
    acceptedBy active answer.vals ≠ []
  decreasing : ∀ before query answer query' answer' later,
    trace = before ++ .asked query answer :: .asked query' answer' :: later →
    answer.res = 10 → answer'.res = 10 →
    setOf (acceptedBy active answer'.vals) ⊂ setOf (acceptedBy active answer.vals)
  clauses : ∀ before query answer later, trace = before ++ .asked query answer :: later →
    query.clauses = encoding af active ++
      (ModelSearch.foundSets active before).map (minimizationClause af)
  excluded : ∀ before query answer later, trace = before ++ .asked query answer :: later →
    answer.res = 10 →
    clauseHolds answer.vals (minimizationClause af (acceptedBy active answer.vals)) = false ∧
      ∀ query' answer', .asked query' answer' ∈ later →
        minimizationClause af (acceptedBy active answer.vals) ∈ query'.clauses
  bounded : (ModelSearch.foundSets active trace).length ≤ 2 ^ active.array.length - 1

/-- The call returns, or it stops for good: with so many arguments that variables do
not fit, and not for a lack of fuel. -/
def Stopped (af : AF) (out : Except Fault (List (List Nat))) : Prop :=
  (∃ result, out = .ok result) ∨ 2 ^ 31 ≤ 2 * af.args ∧
    ∃ fault ≠ Fault.outOfFuel, out = .error fault

section Loops

variable {af : AF} {active : IterableBitSet} {st : ModelSearch} {trace before later : Trace}
  {query query' : Query} {answer answer' : Answer}

theorem loopRecord_nil : LoopRecord af active [] := by
  constructor <;> simp

/-- The state in which a question was asked, with the runs before and after it. -/
theorem asked_in_run (hRuns : Runs (ModelSearch.Step af active) .start
    (before ++ .asked query answer :: later) st) :
    ∃ here next, Runs (ModelSearch.Step af active) .start before here ∧
      query = here.query af active ∧ here.blocked = ModelSearch.foundSets active before ∧
      ModelSearch.Step af active here (.asked query answer) next ∧
      Runs (ModelSearch.Step af active) next later st := by
  obtain ⟨here, next, hBefore, hStep, hLater⟩ := hRuns.split_cons
  refine ⟨here, next, hBefore, ?_, ?_, hStep, hLater⟩
  · cases hStep <;> rfl
  · simpa [ModelSearch.start] using ModelSearch.blocked_eq hBefore

theorem found_of_step {here next : ModelSearch}
    (hStep : ModelSearch.Step af active here (.asked query answer) next) (hRes : answer.res = 10) :
    models answer.vals (here.query af active) = true ∧
      next = here.found (acceptedBy active answer.vals) := by
  cases hStep with
  | found hStuck _ hModel => exact ⟨hModel, rfl⟩
  | stuck hStuck hRes' hNone => simp [hRes] at hRes'

variable (hActive : active.Valid af) (hValid : LiteralsValid af active)
include hActive hValid

theorem found_nonempty (hRuns : Runs (ModelSearch.Step af active) .start
    (before ++ .asked query answer :: later) st) (hRes : answer.res = 10) :
    acceptedBy active answer.vals ≠ [] := by
  obtain ⟨here, next, hBefore, -, -, hStep, -⟩ := asked_in_run hRuns
  have hInv := ModelSearch.invariant_of_runs hActive hValid hBefore
  obtain ⟨hOpen, -⟩ := ModelSearch.open_of_models hActive hValid hInv (found_of_step hStep hRes).1
  obtain ⟨a, ha⟩ := (hOpen.1.sound hActive hValid).1
  exact List.ne_nil_of_mem ha

/-- The next model of the same inner loop accepts less: the assumptions keep it
below, and the clause of the last model makes it different. -/
theorem found_decreasing (hRuns : Runs (ModelSearch.Step af active) .start
    (before ++ .asked query answer :: .asked query' answer' :: later) st)
    (hRes : answer.res = 10) (hRes' : answer'.res = 10) :
    setOf (acceptedBy active answer'.vals) ⊂ setOf (acceptedBy active answer.vals) := by
  obtain ⟨here, next, hBefore, -, -, hStep, hLater⟩ := asked_in_run hRuns
  obtain ⟨-, rfl⟩ := found_of_step hStep hRes
  cases hLater with
  | cons hNext _ =>
      have hInv :=
        (ModelSearch.invariant_of_runs hActive hValid hBefore).step hActive hValid _ _ hStep
      obtain ⟨-, hBlocked, hBelow⟩ :=
        (ModelSearch.models_query_iff hActive hValid hInv _).mp (found_of_step hNext hRes').1
      exact ⟨hBelow _ rfl, hBlocked _ (List.mem_append_right _ (List.mem_singleton.mpr rfl))⟩

/-- The record of every run of the machine is of this kind, field by field. -/
theorem loopRecord_of_runs (hRuns : Runs (ModelSearch.Step af active) .start trace st) :
    LoopRecord af active trace where
  nonempty := by
    intro query answer hAsked hRes
    obtain ⟨before, later, rfl⟩ := List.append_of_mem hAsked
    exact found_nonempty hActive hValid hRuns hRes
  decreasing := by
    rintro before query answer query' answer' later rfl hRes hRes'
    exact found_decreasing hActive hValid hRuns hRes hRes'
  clauses := by
    rintro before query answer later rfl
    obtain ⟨here, next, -, rfl, hBlocked, -⟩ := asked_in_run hRuns
    rw [ModelSearch.query, hBlocked]
  excluded := by
    rintro before query answer later rfl hRes
    refine ⟨?_, fun query' answer' hAsked => ?_⟩
    · have hSub : ∀ a ∈ acceptedBy active answer.vals, a ∈ active.array := fun a ha =>
        (mem_acceptedBy.mp ha).1
      rw [← Bool.not_eq_true, minimizationClause_holds hActive hValid hSub]
      exact fun hNot => hNot le_rfl
    · obtain ⟨middle, last, rfl⟩ := List.append_of_mem hAsked
      have hSplit : before ++ .asked query answer :: (middle ++ .asked query' answer' :: last) =
          (before ++ .asked query answer :: middle) ++ .asked query' answer' :: last := by simp
      rw [hSplit] at hRuns
      obtain ⟨here, next, -, rfl, hBlocked, -⟩ := asked_in_run hRuns
      refine List.mem_append_right _ (List.mem_map_of_mem ?_)
      rw [hBlocked]
      simp [hRes]
  bounded := by
    have hCost := ModelSearch.cost_lt hActive hValid hRuns
    rw [ModelSearch.foundSets_length]
    omega

end Loops

theorem loopRecord_trim {af : AF} (h : af.WellFormed) {active : IterableBitSet}
    (hActive : active.Valid af)
    {trace : Trace} (hRecord : LoopRecord af (active.trim af) trace) :
    LoopRecord af active trace where
  nonempty := hRecord.nonempty
  decreasing := hRecord.decreasing
  clauses := by
    rw [← encoding_trim h hActive]
    exact hRecord.clauses
  excluded := hRecord.excluded
  bounded := hRecord.bounded

/-- Against every correct solver both loops end, after at most one model for each
non-empty set of active arguments. The bits may be stale. -/
theorem enumerateInitial_terminates {af : AF} (h : af.WellFormed) {active : IterableBitSet}
    (hActive : active.Valid af) {State : Type} {oracle : SatOracle State}
    (hOracle : Admitted Correct oracle) (state : State) {fuel : Nat}
    (hFuel : 2 ^ active.array.length ≤ fuel) :
    Stopped af ((enumerateInitial fuel af active).run oracle state).result ∧
      LoopRecord af active ((enumerateInitial fuel af active).run oracle state).trace := by
  rcases enumerateInitial_cases h hActive with ⟨hLarge, fault, hFault, hFails⟩ | ⟨hArgs, hValid⟩
  · rw [(hFails fuel).1]
    exact ⟨Or.inr ⟨hLarge, fault, hFault, rfl⟩, loopRecord_nil⟩
  · obtain ⟨⟨st, hRuns⟩, hDetermined, -⟩ :=
      (enumerateInitial_runs h hActive hArgs hValid fuel).run hOracle state
    refine ⟨?_, loopRecord_trim h hActive (loopRecord_of_runs (trim_valid hActive) hValid hRuns)⟩
    cases hOut : ((enumerateInitial fuel af active).run oracle state).result with
    | ok result => exact Or.inl ⟨result, rfl⟩
    | error fault =>
        have hEnd := hDetermined hFuel
        rw [hOut] at hEnd
        obtain ⟨rfl, hLast, -⟩ := hEnd
        exact Or.inr ⟨by omega, .overflow, by decide, rfl⟩

theorem enumerateInitial_terminates_overlap :
    (∃ result, ((enumerateInitial 4 overlap overlapRest).run
      (fun (state : Unit) query => (bruteForce query, state)) ()).result = .ok result) ∧
    LoopRecord overlap overlapRest ((enumerateInitial 4 overlap overlapRest).run
      (fun (state : Unit) query => (bruteForce query, state)) ()).trace := by
  have hOracle : Admitted Correct (fun (state : Unit) query => (bruteForce query, state)) :=
    fun _ query => bruteForce_correct query
  have hFuel : 2 ^ overlapRest.array.length ≤ 4 := by decide
  have hSmall : ¬ 2 ^ 31 ≤ 2 * overlap.args := by decide
  obtain ⟨hStopped, hRecord⟩ :=
    enumerateInitial_terminates overlap_wellFormed overlapRest_valid hOracle () hFuel
  exact ⟨hStopped.resolve_right fun hLarge => hSmall hLarge.1, hRecord⟩

/-- In every run each recursive call has less active arguments than its caller, no
sequence is longer than the number of arguments, and the run ends by itself. -/
theorem recursion_terminates {af : AF} (h : af.WellFormed) {enumerator : Enumerator}
    (run : CorrectRun af enumerator) :
    (∀ active set newActive newSequence,
      .event (.recurse active set newActive newSequence) ∈ run.trace →
      newActive.array.length < active.array.length ∧ newSequence.length ≤ af.args) ∧
    (∀ sequence ∈ printed run.trace, sequence.length ≤ af.args) ∧
    run.result ≠ .error .outOfFuel := by
  obtain ⟨Flag, mode, hSupplies, hStart⟩ := enumerator.exists_supplies h
  have hRecord := (search_shrinks h hSupplies run.fuel).run run.correct run.state
  have hEnds := (search_avoids h hSupplies run.fuel (full_valid af) [] (by
    simpa [IterableBitSet.full] using run.enough)).ensures.run run.correct run.state
  rw [← hStart] at hRecord hEnds
  have hCalls : ∀ active set newActive newSequence,
      .event (.recurse active set newActive newSequence) ∈ run.trace →
      newActive.array.length < active.array.length ∧ newSequence.length ≤ af.args := by
    intro active set newActive newSequence hEvent
    obtain ⟨sequence, ⟨hActive, hLength⟩, ⟨hNonempty, hDrawn⟩, rfl, rfl⟩ :=
      hRecord.recurses active set newActive newSequence hEvent
    have hLess := getReduct_length_lt h hActive hDrawn hNonempty
    refine ⟨hLess, ?_⟩
    rw [List.length_append, List.length_singleton]
    omega
  refine ⟨hCalls, fun sequence hPrinted => ?_, hEnds⟩
  rcases hRecord.prints sequence hPrinted with rfl | ⟨active, set, newActive, hEvent⟩
  · exact Nat.zero_le _
  · exact (hCalls active set newActive sequence hEvent).2

theorem recursion_terminates_overlap :
    (CorrectRun.ofBruteForce overlap (.argumentAdmissible 4)).result ≠ .error .outOfFuel :=
  (recursion_terminates overlap_wellFormed _).2.2

end SerialisationSolver
