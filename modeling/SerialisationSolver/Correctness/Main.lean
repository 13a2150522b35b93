import SerialisationSolver.Model.Main
import SerialisationSolver.Correctness.Output
import SerialisationSolver.Correctness.Answers

/-! What `main` does with its options, and what an algorithm inside `main` leaves on
the standard streams. -/
namespace SerialisationSolver

open Interaction Interaction.Program Satisfiability

abbrev ShellTrace := List (Entry Query Answer Written)

/-- What is written to `std::cout`, in the order in which it is written. Pieces that
go to the other stream do not show. -/
def stdout (trace : ShellTrace) : List Char :=
  trace.flatMap fun entry => match entry with
    | .event (.out text) => text
    | _ => []

/-- What is written to `std::cerr`, in the order in which it is written. -/
def stderr (trace : ShellTrace) : List Char :=
  trace.flatMap fun entry => match entry with
    | .event (.err text) => text
    | _ => []

section Streams

variable (trace later : ShellTrace) (text : List Char)

@[simp] theorem stdout_nil : stdout [] = [] := rfl

@[simp] theorem stderr_nil : stderr [] = [] := rfl

@[simp] theorem stdout_append : stdout (trace ++ later) = stdout trace ++ stdout later :=
  List.flatMap_append

@[simp] theorem stderr_append : stderr (trace ++ later) = stderr trace ++ stderr later :=
  List.flatMap_append

@[simp] theorem stdout_out : stdout (.event (.out text) :: trace) = text ++ stdout trace := rfl

@[simp] theorem stderr_out : stderr (.event (.out text) :: trace) = stderr trace := rfl

@[simp] theorem stdout_err : stdout (.event (.err text) :: trace) = stdout trace := rfl

@[simp] theorem stderr_err : stderr (.event (.err text) :: trace) = text ++ stderr trace := rfl

/-- An algorithm writes each sequence it prints, with a comma behind it, and nothing
else. -/
theorem stdout_translateTrace (inner : Trace) : stdout (translateTrace shown inner) =
    Delimited.writeEach ',' Output.printSequence (printed inner) := by
  induction inner with
  | nil => rfl
  | cons entry inner ih =>
      rcases entry with ⟨query, answer⟩ |
        ⟨extension⟩ | ⟨active, set, newActive, newSequence⟩ | ⟨sequence⟩
      · exact ih
      · exact ih
      · exact ih
      · rw [printed_print]
        simpa [translateTrace, shown, Delimited.writeEach] using ih

theorem stderr_translateTrace (inner : Trace) : stderr (translateTrace shown inner) = [] := by
  induction inner with
  | nil => rfl
  | cons entry inner ih =>
      rcases entry with ⟨query, answer⟩ |
        ⟨extension⟩ | ⟨active, set, newActive, newSequence⟩ | ⟨sequence⟩
      · exact ih
      · exact ih
      · exact ih
      · exact ih

end Streams

/-- The options ask for a task and name a file, and none of them asks for
information only, so that `main` gets as far as the file. -/
structure Proceeds (argc : Nat) (options : List Getopt) (settings : Settings) : Prop where
  argc_ne : argc ≠ 1
  read : readOptions options .initial = some settings
  noInfo : settings.versionFlag = false ∧ settings.usageFlag = false ∧
    settings.formatsFlag = false ∧
    settings.problemsFlag = false
  task_ne : settings.task ≠ []
  file_ne : settings.file ≠ []

section Main

variable (secondLine : List Char) (fuel : Nat) (locals : Locals)
  (files : List Char → Option (List Char)) (name : List Char)
  {argc : Nat} {options : List Getopt} {settings : Settings}

/-- What is left of `main` then: the file is parsed and the task is solved. -/
theorem Proceeds.main_eq (h : Proceeds argc options settings) :
    main secondLine fuel locals files name argc options =
      parseInShell locals settings.file (files settings.file) >>= fun (aaf, active) =>
        solveTask fuel name settings aaf active := by
  obtain ⟨hVersion, hUsage, hFormats, hProblems⟩ := h.noInfo
  have hTask : settings.task.isEmpty = false := by simpa using h.task_ne
  have hFile : settings.file.isEmpty = false := by simpa using h.file_ne
  rw [main, if_neg h.argc_ne, h.read]
  simp only [hVersion, hUsage, hFormats, hProblems, hTask, hFile, Bool.false_eq_true, if_false]

/-- The enumerator that a task stands for, with the flag or the query argument that
`main` passes on. -/
def Settings.enumerator (settings : Settings) : Option Enumerator :=
  match stringToTask settings.task with
  | .ES =>
      match stringToSem settings.task with
      | .AD => some (.admissible false)
      | .PR => some (.admissible true)
      | .SA => some (.strongAdmissible false)
      | .GR => some (.strongAdmissible true)
      | .CO => some .complete
      | .ST => some .stable
      | .UC => some (.unchallenged true)
      | _ => none
  | .AS =>
      if settings.query.isEmpty then none
      else
        match queryArgument settings.query, stringToSem settings.task with
        | .ok argument, .AD => some (.argumentAdmissible argument)
        | _, _ => none
  | _ => none

/-- If there is one, `main` calls it and ends with a newline and the status 0. -/
theorem solveTask_eq {enumerator : Enumerator} (h : settings.enumerator = some enumerator)
    (aaf : AF) (active : IterableBitSet) : solveTask fuel name settings aaf active =
      inShell (enumerator.start fuel aaf active) >>= fun _ => finish := by
  unfold Settings.enumerator at h
  unfold solveTask
  cases hTask : stringToTask settings.task with
  | ES =>
      cases hSem : stringToSem settings.task <;> simp only [hTask, hSem, Option.some.injEq,
        reduceCtorEq] at h ⊢
      all_goals exact h ▸ rfl
  | AS =>
      rw [hTask] at h
      dsimp only at h ⊢
      split_ifs at h ⊢ with hQuery
      cases hArgument : queryArgument settings.query with
      | error stop => simp [hArgument] at h
      | ok argument =>
          cases hSem : stringToSem settings.task <;>
            simp only [hArgument, hSem, Option.some.injEq, reduceCtorEq] at h ⊢
          exact h ▸ rfl
  | EE => simp [hTask] at h
  | SE => simp [hTask] at h
  | MA => simp [hTask] at h
  | unknownTask => simp [hTask] at h

theorem finish_run {State : Type} (oracle : SatOracle State) (state : State) :
    finish.run oracle state = ⟨.ok 0, state, [.event (.out ['\n'])]⟩ := rfl

/-- How an enumerator inside `main` ends, and what is then on the streams. All is
computed from the run of the enumerator by itself. -/
theorem inShell_start_run {enumerator : Enumerator} {State : Type} (oracle : SatOracle State)
    (state : State) (aaf : AF) (active : IterableBitSet) :
    let out := (enumerator.start fuel aaf active).run oracle state
    let shell := (inShell (enumerator.start fuel aaf active) >>= fun _ => finish).run oracle state
    match out.result with
    | .ok _ => shell.result = .ok 0 ∧ stderr shell.trace = [] ∧
        stdout shell.trace = Output.lineOf Output.printSequence (printed out.trace)
    | .error fault => shell.result = .error (ended fault).2 := by
  dsimp only
  rw [run_bind, inShell, run_translate]
  cases hOut : ((enumerator.start fuel aaf active).run oracle state).result with
  | error fault => rfl
  | ok result =>
      simp only [translateOut, parting, List.append_nil, finish_run]
      refine ⟨trivial, ?_, ?_⟩
      · rw [stderr_append, stderr_translateTrace]
        rfl
      · rw [stdout_append, stdout_translateTrace]
        rfl

/-- The loop of EE-IT over the sets, with what follows it. Unlike the sequences, the
sets are printed after all of them have been found. -/
def showSets (sets : List (List Nat)) : Shell Nat := do
  for ext in sets do
    cout (Output.printExtension ext)
    cout [',']
  finish

/-- The task EE-IT: `enumerate_initial` on the full set, and then the loop over its
result. -/
theorem solveTask_initial (hTask : stringToTask settings.task = .EE)
    (hSem : stringToSem settings.task = .IT) (aaf : AF) (active : IterableBitSet) :
    solveTask fuel name settings aaf active =
      inShell (enumerateInitial fuel aaf active) >>= showSets := by
  simp only [solveTask, hTask, hSem]
  rfl

/-- The loop writes each set with a comma behind it and never fails. -/
theorem showSets_ensures {admits : Query → Answer → Prop} (sets : List (List Nat)) :
    Ensures admits (showSets sets) (fun out trace => out = .ok 0 ∧ stderr trace = [] ∧
      stdout trace = Output.lineOf Output.printExtension sets) := by
  induction sets with
  | nil => exact ⟨rfl, rfl, rfl⟩
  | cons ext sets ih =>
      rw [showSets, List.forIn_cons]
      change Ensures admits (showSets sets) (fun out trace => out = .ok 0 ∧ stderr trace = [] ∧
        stdout (.event (.out (Output.printExtension ext)) :: .event (.out [',']) :: trace) =
          Output.lineOf Output.printExtension (ext :: sets))
      apply ih.mono
      rintro out trace ⟨hReturns, hErr, hOut⟩
      refine ⟨hReturns, hErr, ?_⟩
      rw [stdout_out, stdout_out, hOut]
      simp [Output.lineOf, Delimited.writeEach]

/-- How EE-IT ends, and what is then on the streams. If the enumeration fails, none
of its sets is written. -/
theorem inShell_enumerateInitial_run {State : Type} (oracle : SatOracle State) (state : State)
    (aaf : AF) (active : IterableBitSet) :
    let out := (enumerateInitial fuel aaf active).run oracle state
    let shell := (inShell (enumerateInitial fuel aaf active) >>= showSets).run oracle state
    match out.result with
    | .ok sets => shell.result = .ok 0 ∧ stderr shell.trace = [] ∧
        stdout shell.trace = Output.lineOf Output.printExtension sets
    | .error fault => shell.result = .error (ended fault).2 := by
  have hQuiet : Quiet ((enumerateInitial fuel aaf active).run oracle state).trace :=
    ((enumerateInitial_draws fuel).run (fun _ _ => trivial) state).1
  dsimp only
  rw [run_bind, inShell, run_translate]
  cases hOut : ((enumerateInitial fuel aaf active).run oracle state).result with
  | error fault => rfl
  | ok sets =>
      have hAny : Admitted (fun _ _ => True) oracle := fun _ _ => trivial
      obtain ⟨hReturns, hErr, hText⟩ := (showSets_ensures sets).run hAny
        ((enumerateInitial fuel aaf active).run oracle state).state
      simp only [translateOut, parting, List.append_nil]
      refine ⟨hReturns, ?_, ?_⟩
      · rw [stderr_append, stderr_translateTrace, hErr]
        rfl
      · rw [stdout_append, stdout_translateTrace, hQuiet.printed_eq_nil, hText]
        rfl

end Main

end SerialisationSolver
