import SerialisationSolver.Interaction.Translate
import SerialisationSolver.Model.Output
import SerialisationSolver.Model.Parse
import SerialisationSolver.Model.Sequences

/-! `src/Main.cpp`: the options, the choice of an algorithm and what is written to
the standard streams. The options are given as `getopt_long_only` returns them. -/
namespace SerialisationSolver

open Interaction Satisfiability

/-- `enum task`, with the tasks that `string_to_task` knows. -/
inductive Task where
  | ES
  | EE
  | AS
  | SE
  | MA
  | unknownTask
  deriving DecidableEq, Repr

/-- `enum semantics`, with the semantics that `string_to_sem` knows. -/
inductive Semantics where
  | IT
  | CO
  | ST
  | PR
  | AD
  | SA
  | GR
  | UC
  | unknownSem
  deriving DecidableEq, Repr

/-- `problem.substr(0, problem.find("-"))`, which is all of the text if there is no
dash. -/
def untilDash (problem : List Char) : List Char := problem.takeWhile (· ≠ '-')

/-- `problem.erase(0, problem.find("-") + 1)`: without a dash nothing is erased,
since the sum is zero then. -/
def eraseUntilDash (problem : List Char) : List Char :=
  match problem.dropWhile (· ≠ '-') with
  | [] => problem
  | _ :: rest => rest

/-- `string_to_task`: what stands before the first dash. Tasks that no algorithm
solves are recognised as well. -/
def stringToTask (problem : List Char) : Task :=
  let tmp := untilDash problem
  if tmp = ['E', 'S'] then .ES
  else if tmp = ['E', 'E'] then .EE
  else if tmp = ['A', 'S'] then .AS
  else if tmp = ['S', 'E'] then .SE
  else if tmp = ['M', 'A'] then .MA
  else .unknownTask

/-- `string_to_sem`: what stands between the first dash and the second one, if there
is a second one. -/
def stringToSem (problem : List Char) : Semantics :=
  let tmp := untilDash (eraseUntilDash problem)
  if tmp = ['I', 'T'] then .IT
  else if tmp = ['C', 'O'] then .CO
  else if tmp = ['S', 'T'] then .ST
  else if tmp = ['P', 'R'] then .PR
  else if tmp = ['A', 'D'] then .AD
  else if tmp = ['G', 'R'] then .GR
  else if tmp = ['S', 'A'] then .SA
  else if tmp = ['U', 'C'] then .UC
  else .unknownSem

/-- What is written to `std::cout` and to `std::cerr`, piece by piece. -/
inductive Written where
  | out (text : List Char)
  | err (text : List Char)

/-- Ways in which the process ends before `main` returns: a call of `exit`, an
exception that nothing catches, or a fault of an algorithm. -/
inductive Stop where
  | exit (status : Nat)
  /-- `std::invalid_argument`, which nothing catches -/
  | invalidArgument
  /-- `std::out_of_range`, which nothing catches -/
  | outOfRange
  | fault (fault : Fault)
  deriving DecidableEq, Repr

/-- `main` and what it calls: the solver is asked by the algorithms, and what is
observed is the text that is written. -/
abbrev Shell := Program Query Answer Written Stop

/-- The flags that ask for information only; `main` answers them without a look at
the other options. -/
inductive Info where
  | usage
  | version
  | formats
  | problems

/-- What `getopt_long_only` returns for one option; `other` is a `?`, which stands
for an option that is not known. -/
inductive Getopt where
  | info (info : Info)
  | p (optarg : List Char)
  | f (optarg : List Char)
  | o (optarg : List Char)
  | a (optarg : List Char)
  | other

/-- The variables that the loop over the options sets. The value of `-fo` is stored
by the source too, but nothing reads it. -/
structure Settings where
  versionFlag : Bool
  usageFlag : Bool
  formatsFlag : Bool
  problemsFlag : Bool
  task : List Char
  file : List Char
  query : List Char

def Settings.initial : Settings := ⟨false, false, false, false, [], [], []⟩

/-- The loop over the options, which is left at the first one that is not known. Of
several values for one option the last one counts. -/
def readOptions : List Getopt → Settings → Option Settings
  | [], settings => some settings
  | option :: options, settings =>
      match option with
      | .info .version => readOptions options { settings with versionFlag := true }
      | .info .usage => readOptions options { settings with usageFlag := true }
      | .info .formats => readOptions options { settings with formatsFlag := true }
      | .info .problems => readOptions options { settings with problemsFlag := true }
      | .p optarg => readOptions options { settings with task := optarg }
      | .f optarg => readOptions options { settings with file := optarg }
      | .o _ => readOptions options settings
      | .a optarg => readOptions options { settings with query := optarg }
      | .other => none

def cout (text : List Char) : Shell Unit := Program.log (.out text)

def cerr (text : List Char) : Shell Unit := Program.log (.err text)

/-- `print_usage`, with the name of the program in its first line. -/
def printUsage (solverName : List Char) : Shell Unit := do
  cout ("Usage: ".toList ++ solverName ++ " -p <task> -f <file> -fo <format> \n\n".toList)
  cout ("  <task>      computational problem; " ++
    "for a list of available problems use option --problems\n").toList
  cout "  <file>      input argumentation framework\n".toList
  cout ("  <format>    file format for input AF; " ++
    "for a list of available formats use option --formats\n").toList
  cout " <query>\t\tquery argument or extension\n".toList
  cout "Options:\n".toList
  cout "  --help      Displays this help message.\n".toList
  cout "  --version   Prints version and author information.\n".toList
  cout "  --formats   Prints available file formats.\n".toList
  cout "  --problems  Prints available computational tasks.\n".toList

/-- `print_version`: the line with the version, and the line about the author behind
it, which is a parameter. -/
def printVersion (secondLine solverName : List Char) : Shell Unit := do
  cout (solverName ++ " (version 1.2)\n".toList)
  cout secondLine

/-- `print_formats`: there is one format, whatever the option `-fo` may say. -/
def printFormats : Shell Unit := cout "[i23]\n".toList

/-- `print_problems`. The list is not the list of what `main` solves: `ES-UC` and
`AS-AD` are missing. -/
def printProblems : Shell Unit := cout "[ES-AD,ES-PR,ES-SA,ES-GR,ES-CO,ES-ST,EE-IT]\n".toList

/-- What the events of an algorithm write. A sequence is written with a comma behind
it, and the other events write nothing. -/
def shown : Event → List Written
  | .print sequence => [.out (Output.printSequence sequence), .out [',']]
  | .push _ => []
  | .recurse _ _ _ _ => []

/-- How the fault of an algorithm ends the process. The solver class writes a
message before it exits. -/
def ended : Fault → List Written × Stop
  | .exit => ([.err "Problem\n".toList], .exit 1)
  | fault => ([], .fault fault)

/-- An algorithm inside `main`: its questions go to the same solver, its events and
faults become text and an end of the process. -/
def inShell {Result : Type} (program : M Result) : Shell Result := program.translate shown ended

/-- `parse_i23` inside `main`. A file that cannot be opened leads to a message and
the status 1, and there is no other check. -/
def parseInShell (locals : Locals) (file : List Char) (contents : Option (List Char)) :
    Shell (AF × IterableBitSet) :=
  match parseI23 locals .empty contents with
  | .ok parsed => pure parsed
  | .error .exit => do
      cerr (file ++ ": Cannot open input file\n".toList)
      .fail (.exit 1)
  | .error fault => .fail (.fault fault)

/-- `std::stoi` in base ten: white space and a sign may come first, anything may
come after the digits. -/
def stoi (text : List Char) : Except Stop Int :=
  let (negative, unsigned) := IStringStream.extractSign (text.dropWhile isSpace)
  let digits := unsigned.takeWhile Char.isDigit
  let number : Int := Nat.ofDigitChars 10 digits 0
  let value := if negative then -number else number
  if digits.isEmpty then .error .invalidArgument
  else if -2 ^ 31 ≤ value ∧ value < 2 ^ 31 then .ok value
  else .error .outOfRange

/-- `std::stoi(query) - 1` as a `uint32_t`. Nothing compares it with the number of
arguments, and the query `0` becomes the largest number. -/
def queryArgument (query : List Char) : Except Stop Nat := do
  let value ← stoi query
  if value = -2 ^ 31 then .error (.fault .overflow)
  else return ((value - 1) % 2 ^ 32).toNat

/-- A message on `std::cerr` and the status 1, after which nothing is computed. -/
def complain (name message : List Char) : Shell Nat := do
  cerr (name ++ message)
  return 1

def semanticsNotSupported (name : List Char) : Shell Nat :=
  complain name ": Semantics not supported!\n".toList

/-- The end of `main` after an algorithm: a newline behind what was printed, and the
status 0. -/
def finish : Shell Nat := do
  cout ['\n']
  return 0

/-- The part of `main` after the file was parsed: a choice by task and semantics.
The unchallenged sequences are always the maximal ones here. -/
def solveTask (fuel : Nat) (name : List Char) (settings : Settings) (aaf : AF)
    (active : IterableBitSet) : Shell Nat :=
  match stringToTask settings.task with
  | .ES =>
      match stringToSem settings.task with
      | .AD => do
          inShell (enumerateSequencesAdmissible fuel aaf active false)
          finish
      | .PR => do
          inShell (enumerateSequencesAdmissible fuel aaf active true)
          finish
      | .SA => do
          inShell (enumerateSequencesStrongAdmissible fuel aaf active false)
          finish
      | .GR => do
          inShell (enumerateSequencesStrongAdmissible fuel aaf active true)
          finish
      | .CO => do
          inShell (enumerateSequencesComplete fuel aaf active)
          finish
      | .ST => do
          inShell (enumerateSequencesStable fuel aaf active)
          finish
      | .UC => do
          inShell (enumerateSequencesUnchallenged fuel aaf active true)
          finish
      | _ => semanticsNotSupported name
  | .EE =>
      match stringToSem settings.task with
      | .IT => do
          let result ← inShell (enumerateInitial fuel aaf active)
          for ext in result do
            cout (Output.printExtension ext)
            cout [',']
          finish
      | _ => semanticsNotSupported name
  | .AS =>
      if settings.query.isEmpty then
        complain name ": Query argument must be specified via -a flag\n".toList
      else
        match queryArgument settings.query with
        | .error stop => .fail stop
        | .ok argument =>
            match stringToSem settings.task with
            | .AD => do
                inShell (sequencesArgumentAdmissible fuel aaf active argument)
                finish
            | _ => semanticsNotSupported name
  | _ => complain name ": Problem not supported!\n".toList

/-- `main`, for the name of the program `argv[0]` and files given by their texts.
The option `-fo` is read and has no effect: whatever its value, `parse_i23` is
called. -/
def main (secondLine : List Char) (fuel : Nat) (locals : Locals)
    (files : List Char → Option (List Char))
    (name : List Char) (argc : Nat) (options : List Getopt) : Shell Nat :=
  if argc = 1 then do
    printVersion secondLine name
    return 0
  else
    match readOptions options .initial with
    | none => return 1
    | some settings =>
        if settings.versionFlag then do
          printVersion secondLine name
          return 0
        else if settings.usageFlag then do
          printUsage name
          return 0
        else if settings.formatsFlag then do
          printFormats
          return 0
        else if settings.problemsFlag then do
          printProblems
          return 0
        else if settings.task.isEmpty then
          complain name ": Task must be specified via -p flag\n".toList
        else if settings.file.isEmpty then
          complain name ": Input file must be specified via -f flag\n".toList
        else do
          let (aaf, active) ← parseInShell locals settings.file (files settings.file)
          solveTask fuel name settings aaf active

end SerialisationSolver
