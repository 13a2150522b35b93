import SerialisationSolver.Model.Framework

/-! `src/Parse.cpp`, with the parts of the standard streams that it uses: lines of
a file, words of a line, and decimal numbers that fit into `uint32_t`. -/
namespace SerialisationSolver

/-- `std::istringstream`: what has not been read yet, and its state bits. The bit
`badbit` is never set by what the parser does with a line. -/
structure IStringStream where
  rest : List Char
  eofbit : Bool
  failbit : Bool
  deriving DecidableEq, Repr

/-- `std::isspace` in the classic locale: the space, and the control characters from
tabulator to carriage return. -/
def isSpace (c : Char) : Bool := c.toNat = 32 || (9 ≤ c.toNat && c.toNat ≤ 13)

namespace IStringStream

/-- A stream that has just been made from a line is good, even if the line is empty. -/
def ofLine (line : List Char) : IStringStream := ⟨line, false, false⟩

/-- What every `>>` does first: white space is skipped, and the extraction goes on
only if the stream is good and not at its end. -/
def sentry (iss : IStringStream) : IStringStream × Bool :=
  if iss.eofbit || iss.failbit then ({ iss with failbit := true }, false)
  else
    let rest := iss.rest.dropWhile isSpace
    if rest.isEmpty then (⟨[], true, true⟩, false) else (⟨rest, false, false⟩, true)

/-- `>>` into a `std::string` that is not used any further. The parser reads the
words `p` and `af` of a header in this way, without a look at them. -/
def extractString (iss : IStringStream) : IStringStream :=
  let (iss, good) := iss.sentry
  if good then
    let rest := iss.rest.dropWhile fun c => !isSpace c
    ⟨rest, rest.isEmpty, false⟩
  else iss

/-- The sign of a number, and what follows it. Both signs are accepted for unsigned
numbers. -/
def extractSign : List Char → Bool × List Char
  | c :: rest =>
      if c = '-' then (true, rest)
      else if c = '+' then (false, rest)
      else (false, c :: rest)
  | [] => (false, [])

/-- `>>` into a `uint32_t` variable. Without a good stream the variable keeps its
value, without digits it becomes zero, and a number that is too large is replaced by
the largest one. A minus sign negates modulo `2 ^ 32`. -/
def extractUInt32 (iss : IStringStream) (value : UInt32) : IStringStream × UInt32 :=
  let (iss, good) := iss.sentry
  if good then
    let (negative, unsigned) := extractSign iss.rest
    let digits := unsigned.takeWhile Char.isDigit
    let rest := unsigned.dropWhile Char.isDigit
    let number := Nat.ofDigitChars 10 digits 0
    if digits.isEmpty then (⟨rest, rest.isEmpty, true⟩, 0)
    else if 2 ^ 32 ≤ number then (⟨rest, rest.isEmpty, true⟩, UInt32.ofNat (2 ^ 32 - 1))
    else (⟨rest, rest.isEmpty, false⟩,
      if negative then 0 - UInt32.ofNat number else UInt32.ofNat number)
  else (iss, value)

end IStringStream

/-- The variables that are declared before the loop and never initialised. They keep
their values from one line to the next. -/
structure Locals where
  nArgs : UInt32
  source : UInt32
  target : UInt32
  deriving DecidableEq, Repr

/-- What a line makes the function do: nothing, set the number of arguments, or add
an attack. -/
inductive Action where
  | skip
  | header (nArgs : UInt32)
  | attack (source target : UInt32)
  deriving DecidableEq, Repr

/-- The part of the loop body that reads the line. No extraction is checked, so that
a line without numbers leaves the variables as they are. -/
def readLine (locals : Locals) (line : List Char) : Locals × Action :=
  match line with
  | [] => (locals, .skip)
  | c :: _ =>
    if c = '#' then (locals, .skip)
    else
      let iss := IStringStream.ofLine line
      if c = 'p' then
        let (_, nArgs) := iss.extractString.extractString.extractUInt32 locals.nArgs
        ({ locals with nArgs }, .header nArgs)
      else
        let (iss, source) := iss.extractUInt32 locals.source
        let (_, target) := iss.extractUInt32 locals.target
        ({ locals with source, target }, .attack (source - 1) (target - 1))

/-- The part of the loop body that changes the framework and the active arguments.
The loop that fills `active_array` counts with an `int`, which limits the number in
a header. -/
def perform (af : AF) (active : IterableBitSet) : Action → Except Fault (AF × IterableBitSet)
  | .skip => .ok (af, active)
  | .header nArgs =>
      if nArgs.toNat < 2 ^ 31 - 1 then
        .ok (af.setArguments nArgs.toNat,
          ⟨active.array ++ List.range nArgs.toNat, active.bitset.takeD nArgs.toNat 1⟩)
      else .error .overflow
  | .attack source target => do
      let af ← af.addAttack source.toNat target.toNat
      return (af, active)

/-- `getline`: the line, what follows it, and whether the end of the file was
reached. The end is only noticed by a line without its newline. -/
def getline (input : List Char) : List Char × List Char × Bool :=
  let line := input.takeWhile (· ≠ '\n')
  match input.dropWhile (· ≠ '\n') with
  | [] => (line, [], true)
  | _ :: rest => (line, rest, false)

/-- The loop `while (!input.eof())`. One unit of fuel is used up for each line, and
a file has at most one line more than it has characters. -/
def parseLines : Nat → List Char → Bool → Locals → AF → IterableBitSet →
    Except Fault (AF × IterableBitSet)
  | 0, _, _, _, _, _ => .error .outOfFuel
  | fuel + 1, input, eof, locals, af, active =>
      if eof then .ok (af, active)
      else do
        let (line, input, eof) := getline input
        let (locals, action) := readLine locals line
        let (af, active) ← perform af active action
        parseLines fuel input eof locals af active

/-- `parse_i23`, for a file that is given by its text or cannot be opened. The
variables `locals` hold whatever is in memory, and the framework need not be empty. -/
def parseI23 (locals : Locals) (aaf : AF) (file : Option (List Char)) :
    Except Fault (AF × IterableBitSet) :=
  match file with
  | none => .error .exit
  | some text => parseLines (text.length + 2) text false locals aaf ⟨[], []⟩

end SerialisationSolver
