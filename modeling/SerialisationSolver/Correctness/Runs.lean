import SerialisationSolver.Correctness.Setups

/-! What the runs of an enumerator print, against any correct solver and from
the full set of arguments. Either all literals fit and the search tree decides,
or some variable is no `int` and nothing is printed. -/
namespace SerialisationSolver

open Interaction Interaction.Program Satisfiability Argumentation

/-- The printed sequences, as sequences of sets. Order and repetitions among the
printed ones are left out. -/
def printedSets (trace : Trace) : Set (List (Set Nat)) :=
  {ls | ls ∈ (printed trace).map (List.map setOf)}

/-- The printed sequences satisfy `post` in every run against a correct solver. The
fuel is enough for every loop, so it never stops a run. -/
def EveryRun (af : AF) (program : Nat → M Unit) (post : Set (List (Set Nat)) → Prop) : Prop :=
  ∀ (State : Type) (oracle : SatOracle State) (state : State) (fuel : Nat),
    Admitted Correct oracle → 2 ^ af.args ≤ fuel →
      post (printedSets ((program fuel).run oracle state).trace)

section

variable {af : AF} {program : Nat → M Unit} {post : Set (List (Set Nat)) → Prop}

/-- A correct solver exists, so what holds in every run holds in some run. If all
runs print the same, it is enough to look at what they print. -/
theorem everyRun_iff (reported : Set (List (Set Nat)))
    (h : ∀ fuel, 2 ^ af.args ≤ fuel →
      Ensures Correct (program fuel) (fun _ trace => printedSets trace = reported)) :
    EveryRun af program post ↔ post reported := by
  constructor
  · intro hAll
    have hAdmitted : Admitted Correct (fun (state : Unit) query => (bruteForce query, state)) :=
      fun _ query => bruteForce_correct query
    have hPost := hAll Unit (fun state query => (bruteForce query, state)) () _ hAdmitted le_rfl
    rwa [(h _ le_rfl).run hAdmitted ()] at hPost
  · intro hPost State oracle state fuel hAdmitted hFuel
    rw [(h fuel hFuel).run hAdmitted state]
    exact hPost

end

section

variable {af : AF} {post : Set (List (Set Nat)) → Prop} (h : af.WellFormed)
include h

/-- An enumerator prints what its tree reports, each sequence once, or nothing if
its variables do not fit. -/
theorem Enumerator.start_prints (enumerator : Enumerator) {fuel : Nat}
    (hFuel : 2 ^ af.args ≤ fuel) :
    Ensures Correct (enumerator.start fuel af (.full af.args)) (fun _ trace =>
      printedSets trace = {ls | enumerator.Fits af ∧ ls ∈ enumerator.reported af} ∧
        ((printed trace).map (List.map setOf)).Nodup) := by
  have setup := enumerator.setup h
  rw [setup.start_eq]
  by_cases hFits : enumerator.Fits af
  · have hLength : (IterableBitSet.full af.args).array.length = af.args := List.length_range
    apply (search_ensures h (setup.implements hFits) fuel setup.good (by rwa [hLength])).mono
    intro out trace hPost
    obtain ⟨-, hTraversal⟩ := hPost
    refine ⟨?_, hTraversal.nodup⟩
    ext ls
    simp only [hFits, true_and, Set.ofPred_mem_eq, ← setup.reported_eq]
    exact hTraversal.mem_iff ls
  · obtain ⟨fault, hFault⟩ := setup.fails hFits fuel
    rw [hFault]
    simp [Ensures, printedSets, hFits]

/-- What holds of every run of an enumerator is what holds of the sequences that its
tree reports. -/
theorem Enumerator.everyRun_iff (enumerator : Enumerator) :
    EveryRun af (fun fuel => enumerator.start fuel af (.full af.args)) post ↔
      post {ls | enumerator.Fits af ∧ ls ∈ enumerator.reported af} := by
  apply SerialisationSolver.everyRun_iff
  intro fuel hFuel
  exact (enumerator.start_prints h hFuel).mono fun _ _ hPost => hPost.1

/-- The same for each enumerator of the source, with the reported sequences written
out as chains. Here ES-AD and ES-PR. -/
theorem everyRun_admissible_iff (preferred : Bool) :
    EveryRun af (fun fuel => enumerateSequencesAdmissible fuel af (.full af.args) preferred) post ↔
      post {ls | 2 * af.args < 2 ^ 31 ∧ StaleChain af.Attacks af.arguments ls ∧
        (preferred = true → (frameAfter af.Attacks af.arguments ls).Exhausted af.Attacks)} := by
  refine (Enumerator.everyRun_iff h (.admissible preferred)).trans ?_
  simp only [Enumerator.Fits, mem_reported_admissible]

theorem everyRun_complete_iff :
    EveryRun af (fun fuel => enumerateSequencesComplete fuel af (.full af.args)) post ↔
      post {ls | 2 * af.args < 2 ^ 31 ∧ StaleChain af.Attacks af.arguments ls ∧
        ∀ a ∈ (frameAfter af.Attacks af.arguments ls).active,
          ¬ (frameAfter af.Attacks af.arguments ls).Unattacked af.Attacks a} := by
  refine (Enumerator.everyRun_iff h .complete).trans ?_
  simp only [Enumerator.Fits, mem_reported_complete]

theorem everyRun_stable_iff :
    EveryRun af (fun fuel => enumerateSequencesStable fuel af (.full af.args)) post ↔
      post {ls | 2 * af.args < 2 ^ 31 ∧ StaleChain af.Attacks af.arguments ls ∧
        (frameAfter af.Attacks af.arguments ls).active = ∅} := by
  refine (Enumerator.everyRun_iff h .stable).trans ?_
  simp only [Enumerator.Fits, mem_reported_stable]

/-- ES-SA and ES-GR: the solver is not asked, so no variable can be out of range. -/
theorem everyRun_strongAdmissible_iff (grounded : Bool) :
    EveryRun af (fun fuel =>
      enumerateSequencesStrongAdmissible fuel af (.full af.args) grounded) post ↔
      post ((unattackedTree af.Attacks (grounded = true)).Reported ⟨af.arguments, ∅⟩) := by
  refine (Enumerator.everyRun_iff h (.strongAdmissible grounded)).trans ?_
  simp only [Enumerator.Fits, Enumerator.reported, true_and, Set.ofPred_mem_eq]

theorem everyRun_unchallenged_iff (maximal : Bool) :
    EveryRun af (fun fuel => enumerateSequencesUnchallenged fuel af (.full af.args) maximal) post ↔
      post {ls | 2 * af.args < 2 ^ 31 ∧
        ls ∈ (unchallengedTree af.Attacks (maximal = true)).Reported ⟨af.arguments, ∅⟩} :=
  Enumerator.everyRun_iff h (.unchallenged maximal)

theorem everyRun_acceptance_iff (argument : Nat) :
    EveryRun af (fun fuel => sequencesArgumentAdmissible fuel af (.full af.args) argument) post ↔
      post {ls | 2 * af.args < 2 ^ 31 ∧
        ls ∈ (acceptanceTree af.Attacks argument).Reported (⟨af.arguments, ∅⟩, ∅)} :=
  Enumerator.everyRun_iff h (.argumentAdmissible argument)

end

end SerialisationSolver
