import SerialisationSolver.Correctness.Meanings
import SerialisationSolver.Correctness.Questions
import SerialisationSolver.Correctness.Streams
import SerialisationSolver.Results.Agreement
import SerialisationSolver.Results.Launch
import SerialisationSolver.Results.SolverIndependence

/-! The whole program: from the text of a file to the text on the standard output. -/
namespace SerialisationSolver

open Interaction Interaction.Program Satisfiability Argumentation

/-- Different lists of sequences are never printed as the same line, nor are
different lists of extensions, empty ones included. -/
theorem print_injOn :
    Set.InjOn (Output.lineOf Output.printSequence)
      {sequences | ∀ sequence ∈ sequences, ∀ set ∈ sequence, ∀ a ∈ set, a + 1 < 2 ^ 32} ∧
    Set.InjOn (Output.lineOf Output.printExtension)
      {sets | ∀ set ∈ sets, ∀ a ∈ set, a + 1 < 2 ^ 32} := by
  constructor
  · intro sequences hFit others hOthers hSame
    have hRead := Output.readLineOf_printSequence hFit
    rw [hSame, Output.readLineOf_printSequence hOthers] at hRead
    exact (Option.some.inj hRead).symm
  · intro sets hFit others hOthers hSame
    have hRead := Output.readLineOf_printExtension hFit
    rw [hSame, Output.readLineOf_printExtension hOthers] at hRead
    exact (Option.some.inj hRead).symm

/-- The text is one line that lists exactly the sequences that an enumerator
reports, each of them once. -/
def ListsReported (af : AF) (enumerator : Enumerator) (text : List Char) : Prop :=
  ∃ sequences, Output.readLineOf Output.readSequence text = some sequences ∧ sequences.Nodup ∧
    ∀ sequence, sequence ∈ sequences ↔ (∀ set ∈ sequence, set.Sublist (List.range af.args)) ∧
      sequence.map setOf ∈ enumerator.reported af

theorem CorrectRun.readLine_printed {af : AF} {enumerator : Enumerator}
    (run : CorrectRun af enumerator) (h : af.WellFormed) : Output.readLineOf Output.readSequence
      (Output.lineOf Output.printSequence (printed run.trace)) = some (printed run.trace) := by
  have hArgs := h.args_lt
  apply Output.readLineOf_printSequence
  intro sequence hPrinted set hSet a ha
  have hLess := List.mem_range.mp ((((run.mem_sequences h).mp hPrinted).1 set hSet).subset ha)
  omega

theorem CorrectRun.listsReported {af : AF} {enumerator : Enumerator}
    (run : CorrectRun af enumerator) (h : af.WellFormed) (hFits : enumerator.Fits af) :
    ListsReported af enumerator (Output.lineOf Output.printSequence (printed run.trace)) := by
  refine ⟨printed run.trace, run.readLine_printed h, (run.printed_nodup h).of_map _,
    fun sequence => ?_⟩
  refine (run.mem_sequences h).trans (and_congr_right fun _ => ?_)
  exact and_iff_right hFits

/-- A task on sequences ends with status 0 exactly if all variables fit. Then nothing
is written to the standard error, and the standard output lists what is reported. -/
theorem main_sequences (launch : Launch) {enumerator : Enumerator}
    (hTask : launch.settings.enumerator = some enumerator) :
    (launch.outcome.result = .ok 0 ↔ enumerator.Fits launch.framework) ∧
    (launch.outcome.result = .ok 0 → stderr launch.outcome.trace = [] ∧
      ListsReported launch.framework enumerator (stdout launch.outcome.trace)) := by
  have hWell := launch.framework_wellFormed
  have hEnds := (launch.inner enumerator).result_ok_iff hWell
  have hOutcome := launch.outcome_of_enumerator hTask
  cases hResult : (launch.inner enumerator).result with
  | error fault =>
      rw [hResult] at hEnds hOutcome
      have hNot : ¬ enumerator.Fits launch.framework := fun hFits => by simpa using hEnds.mpr hFits
      simp [hOutcome, hNot]
  | ok result =>
      rw [hResult] at hOutcome
      obtain ⟨hReturns, hErr, hOut⟩ := hOutcome
      have hFits := hEnds.mp hResult
      refine ⟨iff_of_true hReturns hFits, fun _ => ⟨hErr, ?_⟩⟩
      rw [hOut]
      exact (launch.inner enumerator).listsReported hWell hFits

theorem main_sequences_row :
    ((Document.row.launch ['E', 'S', '-', 'P', 'R'] [] (by decide)).outcome.result = .ok 0 ↔
      Enumerator.Fits Document.row.framework (.admissible true)) ∧
    ((Document.row.launch ['E', 'S', '-', 'P', 'R'] [] (by decide)).outcome.result = .ok 0 →
      stderr (Document.row.launch ['E', 'S', '-', 'P', 'R'] [] (by decide)).outcome.trace = [] ∧
      ListsReported Document.row.framework (.admissible true)
        (stdout (Document.row.launch ['E', 'S', '-', 'P', 'R'] [] (by decide)).outcome.trace)) :=
  main_sequences (Document.row.launch ['E', 'S', '-', 'P', 'R'] [] (by decide)) rfl

/-- A solver that gives up now and then: the program ends as if it had not, or it
exits with a message after some of the sequences, none of them cut off or wrong. -/
theorem main_interrupted (invocation : Invocation)
    (hOracle : CorrectUnlessGivenUp invocation.oracle)
    {enumerator : Enumerator} (hTask : invocation.settings.enumerator = some enumerator) :
    invocation.outcome = (invocation.repaired hOracle).outcome ∨
    (invocation.outcome.result = .error (.exit 1) ∧
      stderr invocation.outcome.trace = "Problem\n".toList ∧
      ∃ sequences : List Sequence,
        stdout invocation.outcome.trace = Delimited.writeEach ',' Output.printSequence sequences ∧
        sequences.Nodup ∧ ∀ sequence ∈ sequences,
          (∀ set ∈ sequence, set.Sublist (List.range invocation.framework.args)) ∧
            sequence.map setOf ∈ enumerator.reported invocation.framework) := by
  have hWell := invocation.framework_wellFormed
  have hOutcome : invocation.outcome = (inShell
    (enumerator.start invocation.fuel invocation.framework
      (.full invocation.framework.args)) >>= fun _ =>
        finish).run invocation.oracle invocation.state := by
    rw [invocation.outcome_eq, solveTask_eq _ _ hTask]
  have hRepaired : (invocation.repaired hOracle).outcome =
    (inShell (enumerator.start invocation.fuel
      invocation.framework (.full invocation.framework.args)) >>= fun _ => finish).run
        (repair GivesUp bruteForce invocation.oracle) invocation.state := by
    rw [← solveTask_eq _ invocation.name hTask]
    exact (invocation.repaired hOracle).outcome_eq
  rw [hOutcome, hRepaired]
  apply (inShell_interrupted (enumerator.start_stopsOn hWell invocation.fuel) invocation.oracle
    invocation.state).imp_right
  rintro ⟨hResult, hErr, sequences, hPrefix, hOut⟩
  let run := (invocation.repaired hOracle).inner enumerator
  refine ⟨hResult, hErr, sequences, hOut, ?_, fun sequence hSequence => ?_⟩
  · exact ((run.printed_nodup hWell).of_map _).sublist hPrefix.sublist
  · obtain ⟨hOrdered, -, hReported⟩ := (run.mem_sequences hWell).mp (hPrefix.subset hSequence)
    exact ⟨hOrdered, hReported⟩

/-- A solver that gives up on every call but the first three, which it answers
correctly. -/
def tired (calls : Nat) (query : Query) : Answer × Nat :=
  (if calls < 3 then bruteForce query else ⟨0, fun _ => false⟩, calls + 1)

theorem tired_correct : CorrectUnlessGivenUp tired := by
  intro calls query hAnswers
  unfold tired at hAnswers ⊢
  split_ifs at hAnswers ⊢ with hCalls
  · exact bruteForce_correct query
  · exact absurd ⟨show (0 : Int) ≠ 10 by decide, show (0 : Int) ≠ 20 by decide⟩ hAnswers

/-- A call for a task with that solver, on a document and with everything else as in
`Document.launch`. -/
def Document.tiredCall (doc : Document) (task : List Char) (hTask : task ≠ []) : Invocation :=
  { (doc.launch task [] hTask).toInvocation with State := Nat, oracle := tired, state := 0 }

theorem main_interrupted_row :
    (Document.row.tiredCall ['E', 'S', '-', 'A', 'D'] (by decide)).outcome =
      ((Document.row.tiredCall
        ['E', 'S', '-', 'A', 'D'] (by decide)).repaired tired_correct).outcome ∨
    ((Document.row.tiredCall ['E', 'S', '-', 'A', 'D'] (by decide)).outcome.result =
      .error (.exit 1) ∧
      stderr (Document.row.tiredCall ['E', 'S', '-', 'A', 'D'] (by decide)).outcome.trace =
        "Problem\n".toList ∧
      ∃ sequences : List Sequence,
        stdout (Document.row.tiredCall ['E', 'S', '-', 'A', 'D'] (by decide)).outcome.trace =
          Delimited.writeEach ',' Output.printSequence sequences ∧
        sequences.Nodup ∧ ∀ sequence ∈ sequences,
          (∀ set ∈ sequence, set.Sublist (List.range 3)) ∧
            sequence.map setOf ∈ Enumerator.reported Document.row.framework (.admissible false)) :=
  main_interrupted (Document.row.tiredCall ['E', 'S', '-', 'A', 'D'] (by decide)) tired_correct rfl

/-- On a framework in which attackers of one argument are in conflict, and whose
variables fit, a task on sequences writes exactly the sequences that its semantics
asks for. -/
theorem main_meant (launch : Launch) {enumerator : Enumerator}
    (hTask : launch.settings.enumerator = some enumerator)
    (hConflict : launch.framework.CoattackersConflict)
    (hSmall : 2 * launch.framework.args < 2 ^ 31) :
    launch.outcome.result = .ok 0 ∧ stderr launch.outcome.trace = [] ∧
    ∃ sequences, Output.readLineOf Output.readSequence (stdout launch.outcome.trace) =
      some sequences ∧
      (sequences.map (List.map setOf)).Nodup ∧
      {ls | ls ∈ sequences.map (List.map setOf)} = enumerator.meant launch.framework := by
  have hWell := launch.framework_wellFormed
  have hFits : enumerator.Fits launch.framework := by
    cases enumerator with
    | strongAdmissible => trivial
    | _ => exact hSmall
  have hOutcome := launch.outcome_of_enumerator hTask
  rw [(launch.inner enumerator).result_of_fits hWell hFits] at hOutcome
  obtain ⟨hReturns, hErr, hOut⟩ := hOutcome
  refine ⟨hReturns, hErr, printed (launch.inner enumerator).trace, ?_,
    (launch.inner enumerator).printed_nodup hWell, ?_⟩
  · rw [hOut]
    exact (launch.inner enumerator).readLine_printed hWell
  · rw [← Enumerator.reported_eq_meant hWell hConflict]
    exact (launch.inner enumerator).printedSets_of_fits hWell hFits

theorem main_meant_row :
    (Document.row.launch ['E', 'S', '-', 'C', 'O'] [] (by decide)).outcome.result = .ok 0 ∧
    stderr (Document.row.launch ['E', 'S', '-', 'C', 'O'] [] (by decide)).outcome.trace = [] ∧
    ∃ sequences, Output.readLineOf Output.readSequence
        (stdout (Document.row.launch ['E', 'S', '-', 'C', 'O'] [] (by decide)).outcome.trace) =
          some sequences ∧
      (sequences.map (List.map setOf)).Nodup ∧
      {ls | ls ∈ sequences.map (List.map setOf)} =
        Enumerator.meant Document.row.framework .complete :=
  main_meant (Document.row.launch ['E', 'S', '-', 'C', 'O'] [] (by decide)) rfl
    (show Document.row.framework.CoattackersConflict by decide) (show 2 * 3 < 2 ^ 31 by decide)

/-- Only the attacks count, not the lines they come from: files that are read as the
same attacks between as many arguments, in whatever order and however often, give the
same sequences up to their order. -/
theorem main_sameAttacks (launch other : Launch) {enumerator : Enumerator}
    (hTask : launch.settings.enumerator = some enumerator)
    (hTask' : other.settings.enumerator = some enumerator)
    (hArguments : launch.framework.args = other.framework.args)
    (hSame : ∀ a b, launch.framework.Attacks a b ↔ other.framework.Attacks a b)
    (hFits : enumerator.Fits launch.framework) :
    ∃ sequences sequences',
      Output.readLineOf Output.readSequence (stdout launch.outcome.trace) = some sequences ∧
      Output.readLineOf Output.readSequence (stdout other.outcome.trace) = some sequences' ∧
      sequences.Perm sequences' := by
  have hWell := launch.framework_wellFormed
  have hWell' := other.framework_wellFormed
  have hAttacks : launch.framework.Attacks = other.framework.Attacks := by
    funext a b
    exact propext (hSame a b)
  have hSet : launch.framework.arguments = other.framework.arguments := by
    rw [AF.arguments, AF.arguments, hArguments]
  have hReported : enumerator.reported launch.framework = enumerator.reported other.framework := by
    cases enumerator <;> simp only [Enumerator.reported, hAttacks, hSet]
  have hFitsIff : enumerator.Fits launch.framework ↔ enumerator.Fits other.framework := by
    cases enumerator <;> simp only [Enumerator.Fits, hArguments]
  have hFits' := hFitsIff.mp hFits
  let run := launch.inner enumerator
  let run' := other.inner enumerator
  have hOutcome := launch.outcome_of_enumerator hTask
  have hOutcome' := other.outcome_of_enumerator hTask'
  rw [run.result_of_fits hWell hFits] at hOutcome
  rw [run'.result_of_fits hWell' hFits'] at hOutcome'
  refine ⟨printed run.trace, printed run'.trace, ?_, ?_, ?_⟩
  · rw [hOutcome.2.2]
    exact run.readLine_printed hWell
  · rw [hOutcome'.2.2]
    exact run'.readLine_printed hWell'
  · apply (List.perm_ext_iff_of_nodup ((run.printed_nodup hWell).of_map _)
      ((run'.printed_nodup hWell').of_map _)).mpr
    intro sequence
    have hHere : sequence ∈ printed run.trace ↔ _ := run.mem_sequences hWell
    have hThere : sequence ∈ printed run'.trace ↔ _ := run'.mem_sequences hWell'
    rw [hHere, hThere, hArguments, hReported, iff_true_intro hFits, iff_true_intro hFits']

theorem main_sameAttacks_row :
    ∃ sequences sequences',
      Output.readLineOf Output.readSequence (stdout
        (Document.row.launch ['E', 'S', '-', 'A', 'D'] [] (by decide)).outcome.trace) =
          some sequences ∧
      Output.readLineOf Output.readSequence (stdout
        (Document.rowAgain.launch ['E', 'S', '-', 'A', 'D'] [] (by decide)).outcome.trace) =
          some sequences' ∧
      sequences.Perm sequences' := by
  refine main_sameAttacks (Document.row.launch ['E', 'S', '-', 'A', 'D'] [] (by decide))
    (Document.rowAgain.launch ['E', 'S', '-', 'A', 'D'] [] (by decide)) rfl rfl ?_
      (fun a b => ?_) ?_
  · rw [Document.framework_launch, Document.framework_launch]
    rfl
  · have hLists : Document.row.attacks = [(0, 1), (1, 2)] ∧
        Document.rowAgain.attacks = [(1, 2), (0, 1), (1, 2)] := ⟨rfl, rfl⟩
    rw [Document.framework_launch, Document.framework_launch, Document.framework_attacks,
      Document.framework_attacks, hLists.1, hLists.2]
    simp only [List.mem_cons, List.not_mem_nil, or_false]
    tauto
  · rw [Document.framework_launch]
    exact show 2 * 3 < 2 ^ 31 by decide

/-- The text is one line that lists exactly the initial sets, each of them once and
by its members in order. -/
def ListsInitialSets (af : AF) (text : List Char) : Prop :=
  ∃ sets, Output.readLineOf Output.readExtension text = some sets ∧ sets.Nodup ∧
    ∀ set, set ∈ sets ↔ set.Sublist (List.range af.args) ∧
      IsInitial af.Attacks af.arguments (setOf set)

theorem InitialSets.listsInitialSets {af : AF} (h : af.WellFormed) {sets : List (List Nat)}
    (hSets : InitialSets af (.full af.args) sets) :
    ListsInitialSets af (Output.lineOf Output.printExtension sets) := by
  have hArgs := h.args_lt
  have hFrame := full_frame af
  refine ⟨sets, ?_, hSets.nodup.of_map _, fun set => ?_⟩
  · apply Output.readLineOf_printExtension
    intro set hSet a ha
    have hLess := mem_full.mp (hSets.drawn hSet a ha)
    omega
  · rw [hSets.mem_list_iff (List.Sublist.refl _), ← isInitialWith_empty,
      show (IterableBitSet.full af.args).actives = af.arguments from congrArg Frame.active hFrame,
      show (IterableBitSet.full af.args).stales = ∅ from congrArg Frame.stale hFrame]
    rfl

/-- The task EE-IT ends with status 0 exactly if all variables fit. Then nothing is
written to the standard error, and the standard output lists the initial sets. -/
theorem main_initialSets (launch : Launch) (hTask : stringToTask launch.settings.task = .EE)
    (hSem : stringToSem launch.settings.task = .IT) :
    (launch.outcome.result = .ok 0 ↔ 2 * launch.framework.args < 2 ^ 31) ∧
    (launch.outcome.result = .ok 0 → stderr launch.outcome.trace = [] ∧
      ListsInitialSets launch.framework (stdout launch.outcome.trace)) := by
  have hWell := launch.framework_wellFormed
  have hOutcome := inShell_enumerateInitial_run launch.fuel launch.oracle launch.state
    launch.framework (.full launch.framework.args)
  dsimp only at hOutcome
  rw [← solveTask_initial _ launch.name hTask hSem, ← launch.outcome_eq] at hOutcome
  by_cases hSmall : 2 * launch.framework.args < 2 ^ 31
  · have hFuel : 2 ^ (IterableBitSet.full launch.framework.args).array.length ≤ launch.fuel := by
      rw [show (IterableBitSet.full launch.framework.args).array.length = launch.framework.args from
        List.length_range]
      exact launch.enough
    obtain ⟨-, sets, hSets, hInitial⟩ := (enumerateInitial_initialSets hWell
      (full_reached launch.framework) hSmall hFuel).run launch.correct launch.state
    rw [hSets] at hOutcome
    obtain ⟨hReturns, hErr, hOut⟩ := hOutcome
    refine ⟨iff_of_true hReturns hSmall, fun _ => ⟨hErr, ?_⟩⟩
    rw [hOut]
    exact hInitial.listsInitialSets hWell
  · obtain ⟨fault, hFault⟩ := enumerateInitial_full_fails hWell hSmall
    rw [hFault launch.fuel] at hOutcome
    have hShell : launch.outcome.result = .error (ended fault).2 := hOutcome
    exact ⟨iff_of_false (by simp [hShell]) hSmall, by simp [hShell]⟩

theorem main_initialSets_row :
    ((Document.row.launch ['E', 'E', '-', 'I', 'T'] [] (by decide)).outcome.result = .ok 0 ↔
      2 * Document.row.framework.args < 2 ^ 31) ∧
    ((Document.row.launch ['E', 'E', '-', 'I', 'T'] [] (by decide)).outcome.result = .ok 0 →
      stderr (Document.row.launch ['E', 'E', '-', 'I', 'T'] [] (by decide)).outcome.trace = [] ∧
      ListsInitialSets Document.row.framework
        (stdout (Document.row.launch ['E', 'E', '-', 'I', 'T'] [] (by decide)).outcome.trace)) :=
  main_initialSets (Document.row.launch ['E', 'E', '-', 'I', 'T'] [] (by decide)) (by decide)
    (by decide)

end SerialisationSolver
