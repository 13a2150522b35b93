import SerialisationSolver.Model.Parse
import SerialisationSolver.Correctness.Framework
import Mathlib.Data.List.TakeWhile

/-! What `parse_i23` does is a matter of its lines. Each line is read with the
variables that the lines before it left behind, and what is read is performed. -/
namespace SerialisationSolver

/-- What the lines of a file make the function do, one action for each line. The
variables are handed on from line to line. -/
def actions : Locals → List (List Char) → List Action
  | _, [] => []
  | locals, line :: lines => (readLine locals line).2 :: actions (readLine locals line).1 lines

/-- Performing the actions one after the other, up to the first fault. -/
def execute : List Action → AF → IterableBitSet → Except Fault (AF × IterableBitSet)
  | [], af, active => .ok (af, active)
  | action :: rest, af, active => do
      let (af, active) ← perform af active action
      execute rest af active

theorem execute_append (first rest : List Action) (af : AF) (active : IterableBitSet) :
    execute (first ++ rest) af active =
      execute first af active >>= fun (af, active) => execute rest af active := by
  induction first generalizing af active with
  | nil => rfl
  | cons action first ih =>
      rw [List.cons_append, execute, execute, bind_assoc]
      exact bind_congr fun next => ih next.1 next.2

theorem execute_cons {action : Action} {rest : List Action} {af af' : AF}
    {active active' : IterableBitSet} (hFirst : perform af active action = .ok (af', active')) :
    execute (action :: rest) af active = execute rest af' active' := by
  rw [execute, hFirst]
  rfl

theorem execute_fails {action : Action} {rest : List Action} {af : AF} {active : IterableBitSet}
    {fault : Fault} (hFirst : perform af active action = .error fault) :
    execute (action :: rest) af active = .error fault := by
  rw [execute, hFirst]
  rfl

theorem execute_skip {acts : List Action} (hSkip : ∀ action ∈ acts, action = .skip) (af : AF)
    (active : IterableBitSet) : execute acts af active = .ok (af, active) := by
  induction acts with
  | nil => rfl
  | cons action acts ih =>
      obtain ⟨rfl, hRest⟩ := List.forall_mem_cons.mp hSkip
      exact ih hRest

/-- The lines of a file. After a final newline there is one more, empty line, which
the loop of the source reads as well. -/
def fileLines (text : List Char) : List (List Char) := text.splitOn '\n'

theorem getline_last {text : List Char} (hText : '\n' ∉ text) :
    getline text = (text, [], true) := by
  have hAll : ∀ c ∈ text, decide (c ≠ '\n') = true := fun c hc =>
    decide_eq_true fun hEq => hText (hEq ▸ hc)
  rw [getline, List.dropWhile_eq_nil_iff.mpr hAll, List.takeWhile_eq_self_iff.mpr hAll]

theorem getline_append {line rest : List Char} (hLine : '\n' ∉ line) :
    getline (line ++ '\n' :: rest) = (line, rest, false) := by
  have hAll : ∀ c ∈ line, decide (c ≠ '\n') = true := fun c hc =>
    decide_eq_true fun hEq => hLine (hEq ▸ hc)
  rw [getline, List.dropWhile_append_of_pos hAll, List.takeWhile_append_of_pos hAll]
  simp

/-- The loop reads the lines of the file one after the other. By induction on the
fuel, along the first newline of what is left. -/
theorem parseLines_eq (fuel : Nat) {text : List Char} (hFuel : text.length + 2 ≤ fuel)
    (locals : Locals)
    (af : AF) (active : IterableBitSet) : parseLines fuel text false locals af active =
      execute (actions locals (fileLines text)) af active := by
  induction fuel generalizing text locals af active with
  | zero => omega
  | succ fuel ih =>
      rw [parseLines, if_neg (by decide)]
      by_cases hText : '\n' ∈ text
      · obtain ⟨line, rest, rfl, hLine⟩ := List.eq_append_cons_of_mem hText
        rw [getline_append hLine, fileLines, List.splitOn_append_cons_self_of_not_mem hLine]
        simp only [actions, execute]
        refine bind_congr fun next => ih ?_ _ _ _
        simp only [List.length_append, List.length_cons] at hFuel
        omega
      · rw [getline_last hText, fileLines, List.splitOn_eq_singleton hText]
        simp only [actions, execute]
        refine bind_congr fun next => ?_
        obtain ⟨fuel, rfl⟩ : ∃ rest, fuel = rest + 1 := ⟨fuel - 1, by omega⟩
        rfl

/-- Parsing a file is performing what its lines say. With this the loop over the
characters is out of the way. -/
theorem parseI23_eq (locals : Locals) (aaf : AF) (text : List Char) :
    parseI23 locals aaf (some text) = execute (actions locals (fileLines text)) aaf ⟨[], []⟩ :=
  parseLines_eq _ le_rfl locals aaf ⟨[], []⟩

section Streams

open IStringStream

theorem takeWhile_exact {p : Char → Bool} {xs ys : List Char} (hxs : ∀ c ∈ xs, p c = true)
    (hys : ∀ c ∈ ys.head?, p c = false) : (xs ++ ys).takeWhile p = xs := by
  rw [List.takeWhile_append_of_pos hxs]
  cases ys with
  | nil => simp
  | cons c ys => simp [hys c rfl]

theorem dropWhile_exact {p : Char → Bool} {xs ys : List Char} (hxs : ∀ c ∈ xs, p c = true)
    (hys : ∀ c ∈ ys.head?, p c = false) : (xs ++ ys).dropWhile p = ys := by
  rw [List.dropWhile_append_of_pos hxs]
  cases ys with
  | nil => rfl
  | cons c ys => simp [hys c rfl]

theorem not_isSpace_of_isDigit {c : Char} (hDigit : c.isDigit = true) : isSpace c = false := by
  simp only [Char.isDigit, Bool.and_eq_true, decide_eq_true_eq, UInt32.le_iff_toNat_le] at hDigit
  have hLow : 48 ≤ c.toNat := hDigit.1
  simp only [isSpace, Bool.or_eq_false_iff, Bool.and_eq_false_iff, decide_eq_false_iff_not]
  omega

theorem digit_of_mem_toDigits {n : Nat} {c : Char} (hc : c ∈ Nat.toDigits 10 n) :
    c.isDigit = true :=
  Nat.isDigit_of_mem_toDigits (by decide) (by decide) hc

/-- A number starts with a digit, so that it is no white space and no sign. -/
theorem exists_toDigits_eq_cons (n : Nat) : ∃ c rest, Nat.toDigits 10 n = c :: rest ∧
    c.isDigit = true := by
  cases hDigits : Nat.toDigits 10 n with
  | nil => exact absurd hDigits Nat.toDigits_ne_nil
  | cons c rest => exact ⟨c, rest, rfl, digit_of_mem_toDigits (hDigits ▸ List.mem_cons_self)⟩

/-- The sentry skips white space in front of anything else and leaves the stream
good. -/
theorem sentry_eq {spaces rest : List Char} {c : Char} (hSpaces : ∀ c ∈ spaces, isSpace c = true)
    (hc : isSpace c = false) :
    sentry ⟨spaces ++ c :: rest, false, false⟩ = (⟨c :: rest, false, false⟩, true) := by
  have hRest : (spaces ++ c :: rest).dropWhile isSpace = c :: rest :=
    dropWhile_exact hSpaces (by simpa using hc)
  simp [sentry, hRest]

/-- A word is extracted up to the next white space, which stays in the stream. -/
theorem extractString_eq {spaces word rest : List Char} {c : Char}
    (hSpaces : ∀ c ∈ spaces, isSpace c = true) (hWord : ∀ d ∈ c :: word, isSpace d = false)
    (hRest : ∀ d ∈ rest.head?, isSpace d = true) :
    extractString ⟨spaces ++ c :: word ++ rest, false, false⟩ = ⟨rest, rest.isEmpty, false⟩ := by
  have hCut : (c :: word ++ rest).dropWhile (fun d => !isSpace d) = rest := by
    apply dropWhile_exact
    · simpa using hWord
    · simpa using hRest
  have hSentry : sentry ⟨spaces ++ c :: (word ++ rest), false, false⟩ =
      (⟨c :: (word ++ rest), false, false⟩, true) :=
    sentry_eq hSpaces (hWord c List.mem_cons_self)
  rw [List.append_assoc, List.cons_append, extractString, hSentry]
  simp only [if_true]
  rw [← List.cons_append, hCut]

/-- A number that starts with a digit has no sign, and nothing is taken off it. -/
theorem extractSign_of_isDigit {c : Char} {rest : List Char} (hc : c.isDigit = true) :
    extractSign (c :: rest) = (false, c :: rest) := by
  have hMinus : c ≠ '-' := by
    rintro rfl
    exact absurd hc (by decide)
  have hPlus : c ≠ '+' := by
    rintro rfl
    exact absurd hc (by decide)
  rw [extractSign, if_neg hMinus, if_neg hPlus]

/-- A printed number that fits is extracted as it is, whatever the variable held
before. -/
theorem extractUInt32_toDigits {spaces rest : List Char} {n : Nat} (hn : n < 2 ^ 32)
    (hSpaces : ∀ c ∈ spaces, isSpace c = true) (hRest : ∀ c ∈ rest.head?, c.isDigit = false)
    (value : UInt32) : extractUInt32 ⟨spaces ++ Nat.toDigits 10 n ++ rest, false, false⟩ value =
      (⟨rest, rest.isEmpty, false⟩, UInt32.ofNat n) := by
  have hAll : ∀ c ∈ Nat.toDigits 10 n, c.isDigit = true := fun c hc => digit_of_mem_toDigits hc
  have hTake := takeWhile_exact hAll hRest
  have hDrop := dropWhile_exact hAll hRest
  have hNumber : Nat.ofDigitChars 10 (Nat.toDigits 10 n) 0 = n := Nat.ofDigitChars_ten_toDigits
  have hFit : ¬ 2 ^ 32 ≤ n := by omega
  have hSome : (Nat.toDigits 10 n).isEmpty = false := by simp [Nat.toDigits_ne_nil]
  obtain ⟨c, digits, hDigits, hc⟩ := exists_toDigits_eq_cons n
  rw [hDigits] at hTake hDrop hNumber hSome ⊢
  have hSentry : sentry ⟨spaces ++ c :: (digits ++ rest), false, false⟩ =
      (⟨c :: (digits ++ rest), false, false⟩, true) :=
    sentry_eq hSpaces (not_isSpace_of_isDigit hc)
  rw [List.append_assoc, List.cons_append, extractUInt32, hSentry]
  simp only [if_true, extractSign_of_isDigit hc]
  rw [← List.cons_append, hTake, hDrop, hNumber]
  simp only [hSome, hFit, Bool.false_eq_true, if_false]

/-- After a failure nothing is extracted any more, and the variable keeps its value. -/
theorem extractUInt32_of_failbit {iss : IStringStream} (hFail : iss.failbit = true)
    (value : UInt32) :
    extractUInt32 iss value = (iss, value) := by
  have hSame : ({ iss with failbit := true } : IStringStream) = iss := by rw [← hFail]
  simp [extractUInt32, sentry, hFail, hSame]

/-- An extraction that succeeds does not depend on the value before. Only failures
let an old value through. -/
theorem extractUInt32_congr {iss : IStringStream} {value : UInt32}
    (hGood : (extractUInt32 iss value).1.failbit = false) (value' : UInt32) :
    extractUInt32 iss value' = extractUInt32 iss value := by
  unfold extractUInt32 at hGood ⊢
  cases hSentry : iss.sentry with
  | mk next good =>
      cases good with
      | true => rfl
      | false =>
          have hFail : next.failbit = true := by
            unfold sentry at hSentry
            grind
          simp [hSentry, hFail] at hGood

end Streams

section Lines

open IStringStream

/-- The line is read as the same action, whatever the lines before it left behind. -/
def Reads (line : List Char) (action : Action) : Prop :=
  ∀ locals, (readLine locals line).2 = action

theorem actions_eq {lines : List (List Char)} {acts : List Action}
    (h : List.Forall₂ Reads lines acts) (locals : Locals) : actions locals lines = acts := by
  induction h generalizing locals with
  | nil => rfl
  | cons hReads _ ih => rw [actions, hReads locals, ih]

/-- A line that is skipped: an empty one or a comment. It leaves the variables as
they are, too. -/
theorem reads_skip {line : List Char} (hLine : line = [] ∨ line.head? = some '#') :
    Reads line .skip := by
  intro locals
  rcases hLine with rfl | hLine
  · rfl
  · cases line with
    | nil => rfl
    | cons c rest =>
        obtain rfl := Option.some.inj hLine
        rfl

/-- The header line `p af n`, with single spaces and without a sign. -/
def headerLine (nArgs : Nat) : List Char := 'p' :: ' ' :: 'a' :: 'f' :: ' ' :: Nat.toDigits 10 nArgs

/-- The header line is read as its number, up to the range of `uint32_t`. -/
theorem reads_header {nArgs : Nat} (hArgs : nArgs < 2 ^ 32) :
    Reads (headerLine nArgs) (.header (UInt32.ofNat nArgs)) := by
  intro locals
  have hWord : extractString (.ofLine (headerLine nArgs)) =
      ⟨' ' :: 'a' :: 'f' :: ' ' :: Nat.toDigits 10 nArgs, false, false⟩ :=
    @extractString_eq [] [] _ 'p' (by simp) (by simp [isSpace]) (by simp [isSpace])
  have hWord' : extractString ⟨' ' :: 'a' :: 'f' :: ' ' :: Nat.toDigits 10 nArgs, false, false⟩ =
      ⟨' ' :: Nat.toDigits 10 nArgs, false, false⟩ :=
    @extractString_eq [' '] ['f'] _ 'a' (by simp [isSpace]) (by simp [isSpace]) (by simp [isSpace])
  have hNumber := @extractUInt32_toDigits [' '] [] nArgs hArgs (by simp [isSpace])
    (by simp) locals.nArgs
  rw [List.append_nil, List.singleton_append] at hNumber
  have hRead : readLine locals (headerLine nArgs) =
      ({ locals with nArgs := (extractUInt32 (extractString (extractString
        (.ofLine (headerLine nArgs)))) locals.nArgs).2 },
        .header (extractUInt32 (extractString (extractString
          (.ofLine (headerLine nArgs)))) locals.nArgs).2) := rfl
  rw [hRead, hWord, hWord', hNumber]

/-- The line `s t` of an attack, with a single space. -/
def attackLine (source target : Nat) : List Char :=
  Nat.toDigits 10 source ++ ' ' :: Nat.toDigits 10 target

/-- The line of an attack is read as its two numbers, counted from zero on. A zero
in the file becomes the largest `uint32_t`. -/
theorem reads_attack {source target : Nat} (hSource : source < 2 ^ 32) (hTarget : target < 2 ^ 32) :
    Reads (attackLine source target)
    (.attack (UInt32.ofNat source - 1) (UInt32.ofNat target - 1)) := by
  intro locals
  have hFirst := @extractUInt32_toDigits [] (' ' :: Nat.toDigits 10 target) source hSource (by simp)
    (by simp) locals.source
  have hSecond := @extractUInt32_toDigits [' '] [] target hTarget (by simp [isSpace])
    (by simp) locals.target
  rw [List.append_nil, List.singleton_append] at hSecond
  obtain ⟨c, digits, hDigits, hc⟩ := exists_toDigits_eq_cons source
  have hOther : c ≠ '#' ∧ c ≠ 'p' := by
    constructor
    · rintro rfl
      exact absurd hc (by decide)
    · rintro rfl
      exact absurd hc (by decide)
  rw [List.nil_append, hDigits] at hFirst
  rw [attackLine, hDigits, List.cons_append, readLine, if_neg hOther.1, if_neg hOther.2, ofLine,
    ← List.cons_append, hFirst]
  simp only [List.isEmpty_cons, hSecond]

end Lines

end SerialisationSolver
