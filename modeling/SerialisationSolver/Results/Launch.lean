import SerialisationSolver.Correctness.Interruption
import SerialisationSolver.Correctness.Main
import SerialisationSolver.Results.Documents
import SerialisationSolver.Results.ParsingSafety

/-! Calls of the program on files that are read safely, printed frameworks among
them. -/
namespace SerialisationSolver

open Interaction Interaction.Program Satisfiability

section Reading

variable {af : AF} {active : IterableBitSet} {size : Nat} {acts : List Action}

/-- Orderly actions lead from one clean state to another one, without a fault on the
way. -/
theorem Clean.execute_orderly (h : Clean size af active) (hOrderly : Orderly size acts) :
    ∃ size' af' active', execute acts af active = .ok (af', active') ∧ Clean size' af' active' := by
  induction acts generalizing size af active with
  | nil => exact ⟨size, af, active, rfl, h⟩
  | cons action acts ih =>
      cases action with
      | skip => exact ih h hOrderly
      | header nArgs =>
          obtain ⟨rfl, hSmall, hRest⟩ := hOrderly
          rw [execute_cons (perform_header hSmall)]
          exact ih (h.header hSmall) hRest
      | attack source target =>
          obtain ⟨hSource, hTarget, hRest⟩ := hOrderly
          obtain ⟨af', hAdd, hClean⟩ := h.attack hSource hTarget
          rw [execute_cons (perform_attack hAdd)]
          exact ih hClean hRest

/-- The framework that a file is read as. For a file that is not read at all it is
the empty one. -/
def frameworkOf (locals : Locals) (text : List Char) : AF :=
  match parseI23 locals .empty (some text) with
  | .ok (af, _) => af
  | .error _ => .empty

/-- A file that is read safely is read as a well-formed framework, all arguments
active and all bits exact. -/
theorem ParsesSafely.parseI23_eq {locals : Locals} {text : List Char}
    (h : ParsesSafely locals text) :
    parseI23 locals .empty (some text) =
      .ok (frameworkOf locals text, .full (frameworkOf locals text).args) ∧
    (frameworkOf locals text).WellFormed := by
  rw [ParsesSafely, SerialisationSolver.parseI23_eq] at h
  obtain ⟨size, af, active, hExecute, hWell, rfl, rfl⟩ :=
    clean_empty.execute_orderly ((clean_empty.safe_iff _).mp h)
  have hParse : parseI23 locals .empty (some text) = .ok (af, .full af.args) := by
    rw [SerialisationSolver.parseI23_eq]
    exact hExecute
  have hFramework : frameworkOf locals text = af := by rw [frameworkOf, hParse]
  rw [hFramework]
  exact ⟨hParse, hWell⟩

end Reading

namespace Document

variable (doc : Document)

/-- The framework that a document prints, with both lists in the order of its
attacks. -/
def framework : AF := .listed doc.nArgs doc.attacks

theorem attacks_lt : ∀ attack ∈ doc.attacks, attack.1 < doc.nArgs ∧ attack.2 < doc.nArgs := by
  intro attack hAttack
  obtain ⟨line, -, hPair⟩ := List.mem_filterMap.mp hAttack
  cases line with
  | filler skipped => cases hPair
  | attack source target =>
      obtain rfl := Option.some.inj hPair
      exact ⟨source.isLt, target.isLt⟩

/-- Adding attacks between arguments one by one makes the lists of all of them. -/
theorem foldlM_listed {nArgs : Nat} {attacks : List (Nat × Nat)}
    (hRange : ∀ attack ∈ attacks, attack.1 < nArgs ∧ attack.2 < nArgs) (before : List (Nat × Nat)) :
    attacks.foldlM (fun af attack => AF.addAttack af attack.1 attack.2) (.listed nArgs before) =
      .ok (.listed nArgs (before ++ attacks)) := by
  induction attacks generalizing before with
  | nil =>
      rw [List.append_nil]
      rfl
  | cons attack attacks ih =>
      rw [List.forall_mem_cons] at hRange
      rw [List.foldlM_cons, addAttack_listed hRange.1.1 hRange.1.2]
      exact (ih hRange.2 _).trans (by simp)

theorem build_eq : AF.build doc.nArgs doc.attacks = .ok doc.framework := by
  rw [AF.build, setArguments_eq_listed]
  exact foldlM_listed doc.attacks_lt []

theorem framework_wellFormed : doc.framework.WellFormed :=
  (AF.build_spec (doc.small.trans (by decide)) doc.build_eq).1

theorem framework_attacks (a b : Nat) : doc.framework.Attacks a b ↔ (a, b) ∈ doc.attacks :=
  (AF.build_spec (doc.small.trans (by decide)) doc.build_eq).2.2 a b

theorem parseI23_text (locals : Locals) :
    parseI23 locals .empty (some doc.text) = .ok (doc.framework, .full doc.nArgs) := by
  rw [SerialisationSolver.parseI23_eq, actions_eq doc.reads_lines, doc.execute_actions]
  rfl

theorem parsesSafely (locals : Locals) : ParsesSafely locals doc.text := by
  have hClean : Clean doc.nArgs doc.framework (.full doc.nArgs) :=
    ⟨doc.framework_wellFormed, rfl, rfl⟩
  rw [ParsesSafely, doc.parseI23_text]
  exact hClean.consistent

@[simp] theorem frameworkOf_text (locals : Locals) :
    frameworkOf locals doc.text = doc.framework := by
  rw [frameworkOf, doc.parseI23_text]

end Document

/-- A call of the program that asks for a task on a file that is read safely, with
everything that may differ from call to call: the options, the memory, the other
files and the solver. -/
structure Invocation where
  text : List Char
  settings : Settings
  argc : Nat
  options : List Getopt
  proceeds : Proceeds argc options settings
  name : List Char
  secondLine : List Char
  locals : Locals
  safe : ParsesSafely locals text
  files : List Char → Option (List Char)
  contents : files settings.file = some text
  {State : Type}
  oracle : SatOracle State
  state : State
  fuel : Nat
  enough : 2 ^ (frameworkOf locals text).args ≤ fuel

/-- A call with a correct solver, one that neither errs nor gives up. -/
structure Launch extends Invocation where
  correct : Admitted Correct oracle

namespace Invocation

variable (invocation : Invocation)

/-- The framework in the file, as the program reads it in this call. -/
def framework : AF := frameworkOf invocation.locals invocation.text

theorem framework_wellFormed : invocation.framework.WellFormed := invocation.safe.parseI23_eq.2

/-- How the call ends and what it writes, in which state it leaves the solver and
what it asked. -/
def outcome : Outcome Query Answer Written Stop invocation.State Nat :=
  (main invocation.secondLine invocation.fuel invocation.locals invocation.files invocation.name
    invocation.argc invocation.options).run invocation.oracle invocation.state

/-- After the options and the file only the task is left, on the full set of
arguments. -/
theorem outcome_eq : invocation.outcome =
    (solveTask invocation.fuel invocation.name invocation.settings invocation.framework
      (.full invocation.framework.args)).run invocation.oracle invocation.state := by
  have hParse : parseInShell invocation.locals invocation.settings.file
      (invocation.files invocation.settings.file) =
        pure (invocation.framework, .full invocation.framework.args) := by
    rw [parseInShell, invocation.contents, invocation.safe.parseI23_eq.1]
    rfl
  rw [outcome, invocation.proceeds.main_eq, hParse, pure_bind]

/-- The same call with a solver that never gives up, but asks for a second opinion. -/
noncomputable def repaired (hOracle : CorrectUnlessGivenUp invocation.oracle) : Launch where
  toInvocation := { invocation with oracle := repair GivesUp bruteForce invocation.oracle }
  correct := admitted_repair bruteForce_correct hOracle

end Invocation

namespace Launch

variable (launch : Launch)

/-- The run of an enumerator inside the program, with the solver and the fuel of the
call. -/
def inner (enumerator : Enumerator) : CorrectRun launch.framework enumerator :=
  ⟨launch.oracle, launch.state, launch.fuel, launch.correct, launch.enough⟩

/-- The enumerator decides how the program ends and what it writes. A fault of the
enumerator is the end of the process. -/
theorem outcome_of_enumerator {enumerator : Enumerator}
    (hTask : launch.settings.enumerator = some enumerator) :
    match (launch.inner enumerator).result with
    | .ok _ => launch.outcome.result = .ok 0 ∧ stderr launch.outcome.trace = [] ∧
        stdout launch.outcome.trace =
          Output.lineOf Output.printSequence (printed (launch.inner enumerator).trace)
    | .error fault => launch.outcome.result = .error (ended fault).2 := by
  rw [launch.outcome_eq, solveTask_eq _ _ hTask]
  exact inShell_start_run _ launch.oracle launch.state _ _

end Launch

/-- A call for a task on a document, against the procedure that tries every set. -/
def Document.launch (doc : Document) (task query : List Char) (hTask : task ≠ []) : Launch where
  text := doc.text
  settings := { Settings.initial with task := task, file := ['a', 'f'], query := query }
  argc := 7
  options := [.p task, .f ['a', 'f'], .a query]
  proceeds := ⟨by decide, rfl, ⟨rfl, rfl, rfl, rfl⟩, hTask, List.cons_ne_nil _ _⟩
  name := []
  secondLine := []
  locals := ⟨0, 0, 0⟩
  safe := doc.parsesSafely _
  files := fun _ => some doc.text
  contents := rfl
  oracle := fun (state : Unit) query => (bruteForce query, state)
  state := ()
  fuel := 2 ^ doc.nArgs
  enough := by
    rw [doc.frameworkOf_text]
    exact le_rfl
  correct := fun _ query => bruteForce_correct query

@[simp] theorem Document.framework_launch (doc : Document) (task query : List Char)
    (hTask : task ≠ []) :
    (doc.launch task query hTask).framework = doc.framework := doc.frameworkOf_text _

/-- Three arguments in a row, each of which attacks the next one. -/
def Document.row : Document := ⟨3, by decide, [], [.attack 0 1, .attack 1 2], true⟩

/-- The same row with its attacks in another order, one of them twice. -/
def Document.rowAgain : Document :=
  ⟨3, by decide, [], [.attack 1 2, .attack 0 1, .attack 1 2], false⟩

end SerialisationSolver
