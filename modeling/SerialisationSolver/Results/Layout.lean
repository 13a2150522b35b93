import SerialisationSolver.Results.Documents

/-! Files as people write them: any white space between the numbers of a line, any
text behind them, and carriage returns at the ends of lines. -/
namespace SerialisationSolver

open IStringStream

/-- White space within a line, or none. A newline would end the line and is
excluded. -/
structure Gap where
  chars : List Char
  space : ∀ c ∈ chars, isSpace c = true
  single : '\n' ∉ chars

/-- White space that keeps two words apart, at least one character of it. -/
structure Separator extends Gap where
  nonempty : chars ≠ []

/-- Characters without white space, such as the rest of a word that the parser reads
and forgets. -/
structure Word where
  chars : List Char
  nonspace : ∀ c ∈ chars, isSpace c = false

/-- What may stand behind the last number of a line. It must not begin with a digit,
or the number would go on. -/
structure Tail where
  chars : List Char
  separate : ∀ c ∈ chars.head?, c.isDigit = false
  single : '\n' ∉ chars

/-- The line that starts with `p`; neither its first word nor its second one is
looked at. -/
structure LooseHeader where
  behind : Word
  gap : Separator
  name : Word
  name_ne : name.chars ≠ []
  gap' : Separator
  tail : Tail

/-- A line after the header: something to be skipped, or two numbers with white
space before and between them. -/
inductive LooseLine (nArgs : Nat) where
  | filler (filler : Filler)
  | attack (source target : Fin nArgs) (before : Gap) (between : Separator) (tail : Tail)

def LooseHeader.line (header : LooseHeader) (nArgs : Nat) : List Char :=
  'p' :: (header.behind.chars ++ (header.gap.chars ++ (header.name.chars ++
    (header.gap'.chars ++ (Nat.toDigits 10 nArgs ++ header.tail.chars)))))

namespace LooseLine

variable {nArgs : Nat}

def line : LooseLine nArgs → List Char
  | .filler skipped => skipped.line
  | .attack source target before between tail =>
      before.chars ++ Nat.toDigits 10 (source + 1) ++
        (between.chars ++ (Nat.toDigits 10 (target + 1) ++ tail.chars))

/-- The same line without its layout, which is what a reader of the file would say
it means. -/
def strict : LooseLine nArgs → BodyLine nArgs
  | .filler skipped => .filler skipped
  | .attack source target _ _ _ => .attack source target

end LooseLine

/-- A framework in the format `i23`, in any layout. As in `Document` there is one
header, and attacks are between arguments. -/
structure LooseDocument where
  nArgs : Nat
  small : nArgs < 2 ^ 31 - 1
  before : List Filler
  header : LooseHeader
  body : List (LooseLine nArgs)
  finalNewline : Bool

namespace LooseDocument

/-- The lines of the file. A final newline makes one more, empty line. -/
def lines (doc : LooseDocument) : List (List Char) :=
  doc.before.map Filler.line ++ doc.header.line doc.nArgs ::
    (doc.body.map LooseLine.line ++ if doc.finalNewline then [[]] else [])

def text (doc : LooseDocument) : List Char := ['\n'].intercalate doc.lines

/-- The same document without its layout, line by line. -/
def strict (doc : LooseDocument) : Document :=
  ⟨doc.nArgs, doc.small, doc.before, doc.body.map LooseLine.strict, doc.finalNewline⟩

end LooseDocument

section Reading

variable {nArgs : Nat}

theorem not_isDigit_of_isSpace {c : Char} (hc : isSpace c = true) : c.isDigit = false := by
  cases hDigit : c.isDigit with
  | false => rfl
  | true => rw [not_isSpace_of_isDigit hDigit] at hc; cases hc

/-- White space comes next, which is where a word or a number ends. -/
theorem Separator.head_space (gap : Separator) (rest : List Char) :
    ∀ c ∈ (gap.chars ++ rest).head?, isSpace c = true := by
  intro c hc
  cases hChars : gap.chars with
  | nil => exact absurd hChars gap.nonempty
  | cons d chars =>
      rw [hChars, List.cons_append, List.head?_cons, Option.mem_some] at hc
      rw [← hc]
      exact gap.space d (hChars ▸ List.mem_cons_self)

theorem Separator.isEmpty_append (gap : Separator) (rest : List Char) :
    (gap.chars ++ rest).isEmpty = false := by
  simp [gap.nonempty]

/-- The header is read as the number of arguments, whatever its words are. -/
theorem LooseHeader.reads (header : LooseHeader) (hArgs : nArgs < 2 ^ 32) :
    Reads (header.line nArgs) (.header (UInt32.ofNat nArgs)) := by
  intro locals
  let number := header.gap'.chars ++ (Nat.toDigits 10 nArgs ++ header.tail.chars)
  obtain ⟨c, name, hName⟩ := List.exists_cons_of_ne_nil header.name_ne
  have hFirst : ∀ c ∈ 'p' :: header.behind.chars, isSpace c = false :=
    List.forall_mem_cons.mpr ⟨by simp [isSpace], header.behind.nonspace⟩
  have hWord := @extractString_eq [] _ _ 'p' (by simp) hFirst
    (header.gap.head_space (header.name.chars ++ number))
  have hWord' := @extractString_eq _ name _ c header.gap.space (hName ▸ header.name.nonspace)
    (header.gap'.head_space (Nat.toDigits 10 nArgs ++ header.tail.chars))
  have hNumber :=
    @extractUInt32_toDigits _ _ nArgs hArgs header.gap'.space header.tail.separate locals.nArgs
  rw [header.gap.isEmpty_append] at hWord
  rw [header.gap'.isEmpty_append, ← hName, List.append_assoc] at hWord'
  rw [List.append_assoc] at hNumber
  have hRead : (readLine locals (header.line nArgs)).2 = .header (extractUInt32 (extractString
      (extractString ⟨[] ++ 'p' :: header.behind.chars ++
        (header.gap.chars ++ (header.name.chars ++ number)), false, false⟩)) locals.nArgs).2 := rfl
  rw [hRead, hWord, hWord', hNumber]

/-- A line of an attack begins neither like a comment nor like a header, but with
white space or a digit. -/
theorem LooseLine.head_ne (source : Fin nArgs) (before : Gap) (rest : List Char) :
    ∃ c line, before.chars ++ Nat.toDigits 10 (source + 1) ++ rest = c :: line ∧ c ≠ '#' ∧
      c ≠ 'p' := by
  cases hBefore : before.chars with
  | nil =>
      obtain ⟨c, digits, hDigits, hc⟩ := exists_toDigits_eq_cons (source + 1)
      refine ⟨c, digits ++ rest, by rw [hDigits]; rfl, ?_, ?_⟩
      · rintro rfl
        exact absurd hc (by decide)
      · rintro rfl
        exact absurd hc (by decide)
  | cons c chars =>
      have hc : isSpace c = true := before.space c (hBefore ▸ List.mem_cons_self)
      refine ⟨c, chars ++ Nat.toDigits 10 (source + 1) ++ rest, rfl, ?_, ?_⟩
      · rintro rfl
        simp [isSpace] at hc
      · rintro rfl
        simp [isSpace] at hc

/-- What a line is read as does not depend on its layout, nor on the variables that
the lines before it left. -/
theorem LooseLine.reads (hArgs : nArgs < 2 ^ 32) (line : LooseLine nArgs) :
    Reads line.line line.strict.action := by
  cases line with
  | filler skipped => exact reads_skip skipped.skipped
  | attack source target before between tail =>
      intro locals
      have hBack : ∀ a : Nat, UInt32.ofNat (a + 1) - 1 = UInt32.ofNat a := by simp
      let second := between.chars ++ (Nat.toDigits 10 (target + 1) ++ tail.chars)
      have hSource : source.val + 1 < 2 ^ 32 := by omega
      have hTarget : target.val + 1 < 2 ^ 32 := by omega
      have hBetween : ∀ c ∈ second.head?, c.isDigit = false := fun c hc =>
        not_isDigit_of_isSpace (between.head_space _ c hc)
      have hFirst := @extractUInt32_toDigits _ second _ hSource before.space hBetween locals.source
      have hSecond :=
        @extractUInt32_toDigits _ _ _ hTarget between.space tail.separate locals.target
      rw [between.isEmpty_append] at hFirst
      rw [List.append_assoc] at hSecond
      obtain ⟨c, rest, hLine, hComment, hHeader⟩ := head_ne source before second
      have hText : (LooseLine.attack source target before between tail).line = c :: rest := hLine
      rw [hLine] at hFirst
      rw [hText, readLine, if_neg hComment, if_neg hHeader, ofLine, hFirst]
      simp only [second, hSecond, hBack]
      rfl

end Reading

namespace LooseDocument

variable (doc : LooseDocument)

theorem single_of_mem_lines : ∀ line ∈ doc.lines, '\n' ∉ line := by
  have hDigits : ∀ n : Nat, '\n' ∉ Nat.toDigits 10 n :=
    fun n hn => absurd (digit_of_mem_toDigits hn) (by decide)
  have hWord : ∀ word : Word, '\n' ∉ word.chars := fun word hNewline => by
    have hSpace := word.nonspace '\n' hNewline
    simp [isSpace] at hSpace
  intro line hLine
  simp only [lines, List.mem_append, List.mem_cons, List.mem_map] at hLine
  obtain ⟨skipped, -, rfl⟩ | rfl | ⟨bodyLine, -, rfl⟩ | hEnd := hLine
  · exact skipped.single
  · simp [LooseHeader.line, hDigits, hWord, doc.header.gap.single, doc.header.gap'.single,
      doc.header.tail.single]
  · cases bodyLine with
    | filler skipped => exact skipped.single
    | attack source target before between tail =>
        simp [LooseLine.line, hDigits, before.single, between.single, tail.single]
  · have hEmpty : line = [] := by
      split_ifs at hEnd
      · exact List.mem_singleton.mp hEnd
      · cases hEnd
    simp [hEmpty]

theorem fileLines_text : fileLines doc.text = doc.lines :=
  List.splitOn_intercalate '\n' doc.single_of_mem_lines (by simp [lines])

/-- Line for line the file is read like the strict one. -/
theorem reads_lines : List.Forall₂ Reads (fileLines doc.text) doc.strict.actions := by
  have hArgs : doc.nArgs < 2 ^ 32 := by
    have hSmall := doc.small
    omega
  have hBefore : List.Forall₂ Reads (doc.before.map Filler.line)
      (doc.before.map fun _ => Action.skip) := by
    rw [List.forall₂_map_left_iff, List.forall₂_map_right_iff, List.forall₂_same]
    exact fun skipped _ => reads_skip skipped.skipped
  have hBody : List.Forall₂ Reads (doc.body.map LooseLine.line)
      ((doc.body.map LooseLine.strict).map BodyLine.action) := by
    rw [List.map_map, List.forall₂_map_left_iff, List.forall₂_map_right_iff, List.forall₂_same]
    exact fun line _ => line.reads hArgs
  have hEnd : List.Forall₂ Reads (if doc.finalNewline then [[]] else [])
      (if doc.finalNewline then [Action.skip] else []) := by
    split_ifs
    · exact .cons (reads_skip (Or.inl rfl)) .nil
    · exact .nil
  rw [fileLines_text, lines, Document.actions, List.append_assoc, List.cons_append]
  exact List.rel_append hBefore (.cons (doc.header.reads hArgs) (List.rel_append hBody hEnd))

end LooseDocument

/-- The layout of a file does not matter: it is parsed like the same file with
single spaces and nothing behind the numbers. This holds for any framework to begin
with. -/
theorem parseI23_layout (doc : LooseDocument) (locals : Locals) (aaf : AF) :
    parseI23 locals aaf (some doc.text) = parseI23 locals aaf (some doc.strict.text) := by
  rw [parseI23_eq, parseI23_eq, actions_eq doc.reads_lines, actions_eq doc.strict.reads_lines]

/-- A tab and a blank, carriage returns and a semicolon. -/
example : LooseDocument.text ⟨2, by decide, [],
    ⟨⟨[], by simp⟩, ⟨⟨['\t'], by simp [isSpace], by simp⟩, by simp⟩,
      ⟨['a', 'f'], by simp [isSpace]⟩, by simp,
      ⟨⟨[' '], by simp [isSpace], by simp⟩, by simp⟩, ⟨['\r'], by simp, by simp⟩⟩,
    [.attack 0 1 ⟨[' '], by simp [isSpace], by simp⟩ ⟨⟨['\t', ' '], by simp [isSpace],
      by simp⟩, by simp⟩
      ⟨[';', '\r'], by simp, by simp⟩], true⟩ = "p\taf 2\r\n 1\t 2;\r\n".toList := by decide

end SerialisationSolver
