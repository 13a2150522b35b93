import SerialisationSolver.Model.Output
import SerialisationSolver.Correctness.Parse
import SerialisationSolver.Text.Delimited

/-! What is written can be read back: arguments are numbers from one on, extensions
and sequences are lists between brackets, and a comma follows each of them. -/
namespace SerialisationSolver.Output

open Delimited

/-- The brackets of an extension, with the comma between two arguments. -/
def square : Brackets Char := ⟨'[', ',', ']', by decide⟩

/-- The brackets of a sequence, with the comma between two extensions. -/
def round : Brackets Char := ⟨'(', ',', ')', by decide⟩

/-- The loop of `print_extension` writes the list of its arguments between square
brackets. -/
theorem printExtension_eq (extension : List Nat) :
    printExtension extension = square.write printArgument extension :=
  square.writeLoop_eq printArgument 0 extension

/-- The loop of `print_sequence` writes the list of its extensions between round
brackets. -/
theorem printSequence_eq (sequence : Sequence) :
    printSequence sequence = round.write printExtension sequence :=
  round.writeLoop_eq printExtension [] sequence

/-- Reads a number up to the first character that is no digit, and counts it from
zero on again. -/
def readArgument : Reader Char Nat := fun text =>
  let digits := text.takeWhile Char.isDigit
  if digits.isEmpty then none
  else some (Nat.ofDigitChars 10 digits 0 - 1, text.dropWhile Char.isDigit)

def readExtension : Reader Char (List Nat) := square.read readArgument

def readSequence : Reader Char Sequence := round.read readExtension

/-- All that is written before the newline at the end. Text behind the newline is
refused. -/
def readLineOf {Item : Type} (read : Reader Char Item) (text : List Char) : Option (List Item) :=
  match readEach ',' '\n' read text.length text with
  | some (items, []) => some items
  | _ => none

/-- Each item with its comma, and the newline at the end: the whole output of the
program on `std::cout`. -/
def lineOf {Item : Type} (print : Item → List Char) (items : List Item) : List Char :=
  writeEach ',' print items ++ ['\n']

/-- An argument is read back if no digit follows it. The largest `uint32_t` is
excluded, as adding one to it gives zero. -/
theorem readArgument_printArgument {arg : Nat} (hFit : arg + 1 < 2 ^ 32) :
    ReadsBack readArgument printArgument (fun rest => ∀ c ∈ rest.head?, c.isDigit = false) arg := by
  intro rest hRest
  have hAll : ∀ c ∈ Nat.toDigits 10 (arg + 1), c.isDigit = true :=
    fun c hc => digit_of_mem_toDigits hc
  have hSome : (Nat.toDigits 10 (arg + 1)).isEmpty = false := by simp [Nat.toDigits_ne_nil]
  have hNumber : Nat.ofDigitChars 10 (Nat.toDigits 10 (arg + 1)) 0 = arg + 1 :=
    Nat.ofDigitChars_ten_toDigits
  rw [printArgument, Nat.mod_eq_of_lt hFit, readArgument, takeWhile_exact hAll hRest,
    dropWhile_exact hAll hRest, hNumber]
  simp [hSome]

theorem printArgument_opens (arg : Nat) : OpensWithout ']' printArgument arg := by
  obtain ⟨c, digits, hDigits, hc⟩ := exists_toDigits_eq_cons ((arg + 1) % 2 ^ 32)
  refine ⟨c, digits, hDigits, ?_⟩
  rintro rfl
  exact absurd hc (by decide)

/-- Every extension of arguments in range is read back, whatever comes after its
bracket. -/
theorem readExtension_printExtension {extension : List Nat}
    (hFit : ∀ arg ∈ extension, arg + 1 < 2 ^ 32) :
    ReadsBack readExtension printExtension (fun _ => True) extension := by
  have hList : ReadsBack readExtension (square.write printArgument) (fun _ => True) extension := by
    apply Brackets.read_write
    · intro arg hArg rest hRest
      apply readArgument_printArgument (hFit arg hArg)
      intro c hc
      have hClosed : c = ',' ∨ c = ']' := by
        rw [Option.mem_def] at hc
        simpa [Brackets.Follows, hc, square] using hRest
      rcases hClosed with rfl | rfl <;> decide
    · exact fun arg _ => printArgument_opens arg
  intro rest hRest
  rw [printExtension_eq]
  exact hList rest hRest

theorem printExtension_opens {other : Char} (hOther : '[' ≠ other) (extension : List Nat) :
    OpensWithout other printExtension extension := by
  rw [OpensWithout, printExtension_eq]
  cases extension with
  | nil => exact ⟨'[', _, rfl, hOther⟩
  | cons arg rest => exact ⟨'[', _, rfl, hOther⟩

theorem printSequence_opens {other : Char} (hOther : '(' ≠ other) (sequence : Sequence) :
    OpensWithout other printSequence sequence := by
  rw [OpensWithout, printSequence_eq]
  cases sequence with
  | nil => exact ⟨'(', _, rfl, hOther⟩
  | cons extension rest => exact ⟨'(', _, rfl, hOther⟩

/-- Every sequence of such extensions is read back; its brackets differ from those
of the extensions. -/
theorem readSequence_printSequence {sequence : Sequence}
    (hFit : ∀ extension ∈ sequence, ∀ arg ∈ extension, arg + 1 < 2 ^ 32) :
    ReadsBack readSequence printSequence (fun _ => True) sequence := by
  have hList : ReadsBack readSequence (round.write printExtension) (fun _ => True) sequence := by
    apply Brackets.read_write
    · exact fun extension hExtension rest _ =>
        readExtension_printExtension (hFit extension hExtension) rest trivial
    · exact fun extension _ => printExtension_opens (by decide) extension
  intro rest hRest
  rw [printSequence_eq]
  exact hList rest hRest

/-- A line of items is read back, if each of them is and none begins like the
newline. -/
theorem readLineOf_lineOf {Item : Type} {read : Reader Char Item} {print : Item → List Char}
    {items : List Item} (hItems : ∀ item ∈ items, ReadsBack read print (fun _ => True) item)
    (hOpens : ∀ item ∈ items, OpensWithout '\n' print item) :
    readLineOf read (lineOf print items) = some items := by
  have hLength : items.length < (lineOf print items).length := by
    have hEach : items.length ≤ (writeEach ',' print items).length := length_le_writeEach
    simp only [lineOf, List.length_append, List.length_singleton]
    omega
  have hRead : readEach ',' '\n' read (lineOf print items).length (lineOf print items) =
      some (items, []) :=
    readEach_writeEach hLength (fun item hItem rest _ => hItems item hItem rest trivial) hOpens []
  rw [readLineOf, hRead]

/-- A line of sequences is read back, so that different lists of sequences are
written differently. -/
theorem readLineOf_printSequence {sequences : List Sequence}
    (hFit : ∀ sequence ∈ sequences, ∀ extension ∈ sequence, ∀ arg ∈ extension, arg + 1 < 2 ^ 32) :
    readLineOf readSequence (lineOf printSequence sequences) = some sequences :=
  readLineOf_lineOf (fun sequence hSequence => readSequence_printSequence (hFit sequence hSequence))
    fun sequence _ => printSequence_opens (by decide) sequence

/-- A line of extensions is read back, which is what EE-IT writes. -/
theorem readLineOf_printExtension {extensions : List (List Nat)}
    (hFit : ∀ extension ∈ extensions, ∀ arg ∈ extension, arg + 1 < 2 ^ 32) :
    readLineOf readExtension (lineOf printExtension extensions) = some extensions :=
  readLineOf_lineOf (fun extension hExtension => readExtension_printExtension
    (hFit extension hExtension))
    fun extension _ => printExtension_opens (by decide) extension

end SerialisationSolver.Output
