import SerialisationSolver.Correctness.Parse
import Mathlib.Data.List.GetD

/-! Reading undoes printing. A document has a header, one line for each attack, and
empty lines and comments anywhere. -/
namespace SerialisationSolver

/-- An empty line or a comment, which the parser skips. Neither may contain the end
of a line. -/
structure Filler where
  line : List Char
  skipped : line = [] ∨ line.head? = some '#'
  single : '\n' ∉ line

/-- A line after the header: something to be skipped, or an attack between two
arguments. Arguments are printed from one on. -/
inductive BodyLine (nArgs : Nat) where
  | filler (filler : Filler)
  | attack (source target : Fin nArgs)

namespace BodyLine

variable {nArgs : Nat}

def line : BodyLine nArgs → List Char
  | .filler skipped => skipped.line
  | .attack source target => attackLine (source + 1) (target + 1)

/-- The attack of the line, counted from zero. Lines that are skipped have none. -/
def pair : BodyLine nArgs → Option (Nat × Nat)
  | .filler _ => none
  | .attack source target => some (source, target)

end BodyLine

/-- A framework printed in the format `i23`. The bound on the number of arguments is
that of the loop which fills the array. -/
structure Document where
  nArgs : Nat
  small : nArgs < 2 ^ 31 - 1
  before : List Filler
  body : List (BodyLine nArgs)
  finalNewline : Bool

namespace Document

def lines (doc : Document) : List (List Char) :=
  doc.before.map Filler.line ++ headerLine doc.nArgs :: doc.body.map BodyLine.line

def text (doc : Document) : List Char :=
  ['\n'].intercalate doc.lines ++ if doc.finalNewline then ['\n'] else []

/-- The attacks that are printed, in order and as often as they are printed. -/
def attacks (doc : Document) : List (Nat × Nat) := doc.body.filterMap BodyLine.pair

end Document

section Listed

/-- Both adjacency lists of a sequence of attacks. Attackers and targets stand in
the order of the attacks. -/
def AF.listed (nArgs : Nat) (attacks : List (Nat × Nat)) : AF where
  args := nArgs
  attackers := (List.range nArgs).map fun a => (attacks.filter (·.2 = a)).map (·.1)
  attacked := (List.range nArgs).map fun a => (attacks.filter (·.1 = a)).map (·.2)

theorem setArguments_eq_listed (nArgs : Nat) : AF.empty.setArguments nArgs = .listed nArgs [] := by
  simp [AF.setArguments, AF.empty, AF.listed]

private theorem modify_map_range (n i : Nat) (f : Nat → List Nat) (x : Nat) :
    ((List.range n).map f).modify i (· ++ [x]) =
      (List.range n).map fun a => if a = i then f a ++ [x] else f a := by
  apply List.ext_getElem
  · simp
  · intro j hj hj'
    simp only [List.getElem_modify, List.getElem_map, List.getElem_range]
    grind

/-- Adding an attack between arguments puts it at the end of the sequence. -/
theorem addAttack_listed {nArgs source target : Nat} (hSource : source < nArgs)
    (hTarget : target < nArgs)
    (attacks : List (Nat × Nat)) : (AF.listed nArgs attacks).addAttack source target =
      .ok (.listed nArgs (attacks ++ [(source, target)])) := by
  have hRange : target < (AF.listed nArgs attacks).attackers.length ∧
      source < (AF.listed nArgs attacks).attacked.length := by
    simpa [AF.listed] using ⟨hTarget, hSource⟩
  rw [AF.addAttack, if_pos hRange]
  simp only [AF.listed, modify_map_range, Except.ok.injEq, AF.mk.injEq, true_and]
  constructor
  · apply List.map_congr_left
    intro a _
    by_cases hHere : a = target
    · simp [hHere]
    · simp [hHere, Ne.symm hHere]
  · apply List.map_congr_left
    intro a _
    by_cases hHere : a = source
    · simp [hHere]
    · simp [hHere, Ne.symm hHere]

theorem attackersOf_listed {nArgs a : Nat} (ha : a < nArgs) (attacks : List (Nat × Nat)) :
    (AF.listed nArgs attacks).attackersOf a = (attacks.filter (·.2 = a)).map (·.1) := by
  simp [AF.attackersOf, AF.listed, ha]

theorem attackedBy_listed {nArgs a : Nat} (ha : a < nArgs) (attacks : List (Nat × Nat)) :
    (AF.listed nArgs attacks).attackedBy a = (attacks.filter (·.1 = a)).map (·.2) := by
  simp [AF.attackedBy, AF.listed, ha]

/-- Both lists count the same attacks, also where an attack is printed several
times. -/
theorem count_listed {nArgs a b : Nat} (ha : a < nArgs) (hb : b < nArgs)
    (attacks : List (Nat × Nat)) :
    ((AF.listed nArgs attacks).attackersOf a).count b =
      ((AF.listed nArgs attacks).attackedBy b).count a := by
  rw [attackersOf_listed ha, attackedBy_listed hb, List.count, List.count, List.countP_map,
    List.countP_map, List.countP_filter, List.countP_filter]
  apply List.countP_congr
  intro attack _
  simp only [Function.comp_apply, Bool.and_eq_true, beq_iff_eq, decide_eq_true_eq]
  exact and_comm

end Listed

section Reading

variable {nArgs : Nat}

/-- What a line of the body makes the function do. -/
def BodyLine.action : BodyLine nArgs → Action
  | .filler _ => .skip
  | .attack source target => .attack (UInt32.ofNat source) (UInt32.ofNat target)

theorem BodyLine.reads (hArgs : nArgs < 2 ^ 32) (line : BodyLine nArgs) :
    Reads line.line line.action := by
  cases line with
  | filler skipped => exact reads_skip skipped.skipped
  | attack source target =>
      have hBack : ∀ a : Nat, UInt32.ofNat (a + 1) - 1 = UInt32.ofNat a := by simp
      have hReads := reads_attack (show source.val + 1 < 2 ^ 32 by omega)
        (show target.val + 1 < 2 ^ 32 by omega)
      rw [hBack, hBack] at hReads
      exact hReads

/-- The lines of the body add their attacks one after the other, to whatever attacks
are there. -/
theorem execute_body (hArgs : nArgs < 2 ^ 32) (body : List (BodyLine nArgs))
    (attacks : List (Nat × Nat))
    (active : IterableBitSet) : execute (body.map BodyLine.action) (.listed nArgs attacks) active =
      .ok (.listed nArgs (attacks ++ body.filterMap BodyLine.pair), active) := by
  induction body generalizing attacks with
  | nil => simp [execute]
  | cons line body ih =>
      cases line with
      | filler skipped => exact ih attacks
      | attack source target =>
          have hSource : (UInt32.ofNat source).toNat = source :=
            UInt32.toNat_ofNat_of_lt' (source.isLt.trans hArgs)
          have hTarget : (UInt32.ofNat target).toNat = target :=
            UInt32.toNat_ofNat_of_lt' (target.isLt.trans hArgs)
          have hAdd := addAttack_listed source.isLt target.isLt attacks
          rw [List.map_cons, execute, BodyLine.action, perform, hSource, hTarget, hAdd]
          exact (ih _).trans (by simp [BodyLine.pair])

end Reading

namespace Document

variable (doc : Document)

theorem single_of_mem_lines : ∀ line ∈ doc.lines, '\n' ∉ line := by
  have hDigits : ∀ n : Nat, '\n' ∉ Nat.toDigits 10 n :=
    fun n hn => absurd (digit_of_mem_toDigits hn) (by decide)
  intro line hLine
  rcases List.mem_append.mp hLine with hBefore | hRest
  · obtain ⟨skipped, -, rfl⟩ := List.mem_map.mp hBefore
    exact skipped.single
  · rcases List.mem_cons.mp hRest with rfl | hBody
    · simp [headerLine, hDigits]
    · obtain ⟨bodyLine, -, rfl⟩ := List.mem_map.mp hBody
      cases bodyLine with
      | filler skipped => exact skipped.single
      | attack source target => simp [BodyLine.line, attackLine, hDigits]

/-- The file has the lines of the document, and one more if it ends with a newline. -/
theorem fileLines_text :
    fileLines doc.text = doc.lines ++ if doc.finalNewline then [[]] else [] := by
  have hLines : (['\n'].intercalate doc.lines).splitOn '\n' = doc.lines :=
    List.splitOn_intercalate '\n' doc.single_of_mem_lines (by simp [lines])
  unfold fileLines text
  cases doc.finalNewline with
  | false => simpa using hLines
  | true =>
      have hSplit : (['\n'].intercalate doc.lines ++ ['\n']).splitOn '\n' =
          (['\n'].intercalate doc.lines).splitOn '\n' ++ [].splitOn '\n' :=
        List.splitOn_append_cons_self _ []
      rw [hLines, List.splitOn_nil] at hSplit
      exact hSplit

/-- What the lines of the document make the function do, the empty line behind a
final newline included. -/
def actions : List Action :=
  (doc.before.map fun _ => Action.skip) ++ .header (UInt32.ofNat doc.nArgs) ::
    doc.body.map BodyLine.action ++ if doc.finalNewline then [.skip] else []

/-- Each line is read as what it is meant to be, with any values in the variables. -/
theorem reads_lines : List.Forall₂ Reads (fileLines doc.text) doc.actions := by
  have hArgs : doc.nArgs < 2 ^ 32 := by
    have hSmall := doc.small
    omega
  have hBefore : List.Forall₂ Reads (doc.before.map Filler.line)
      (doc.before.map fun _ => Action.skip) := by
    rw [List.forall₂_map_left_iff, List.forall₂_map_right_iff, List.forall₂_same]
    exact fun skipped _ => reads_skip skipped.skipped
  have hBody : List.Forall₂ Reads (doc.body.map BodyLine.line) (doc.body.map BodyLine.action) := by
    rw [List.forall₂_map_left_iff, List.forall₂_map_right_iff, List.forall₂_same]
    exact fun line _ => line.reads hArgs
  have hEnd : List.Forall₂ Reads (if doc.finalNewline then [[]] else [])
      (if doc.finalNewline then [Action.skip] else []) := by
    split_ifs
    · exact .cons (reads_skip (Or.inl rfl)) .nil
    · exact .nil
  rw [fileLines_text, lines, actions, List.append_assoc, List.cons_append, List.append_assoc]
  exact List.rel_append hBefore (.cons (reads_header hArgs) (List.rel_append hBody hEnd))

/-- Performed on the empty framework, these actions build up the lists of the
document. -/
theorem execute_actions : execute doc.actions .empty ⟨[], []⟩ =
    .ok (.listed doc.nArgs doc.attacks, .full doc.nArgs) := by
  have hSmall := doc.small
  have hNumber : (UInt32.ofNat doc.nArgs).toNat = doc.nArgs :=
    UInt32.toNat_ofNat_of_lt' (hSmall.trans (by decide))
  have hHeader : perform .empty ⟨[], []⟩ (.header (UInt32.ofNat doc.nArgs)) =
      .ok (.listed doc.nArgs [], .full doc.nArgs) := by
    rw [perform, hNumber, if_pos hSmall, setArguments_eq_listed]
    simp [IterableBitSet.full]
  have hBody := execute_body (show doc.nArgs < 2 ^ 32 by omega) doc.body [] (.full doc.nArgs)
  rw [List.nil_append] at hBody
  have hEnd : execute (if doc.finalNewline then [.skip] else []) (.listed doc.nArgs doc.attacks)
      (.full doc.nArgs) = .ok (.listed doc.nArgs doc.attacks, .full doc.nArgs) := by
    apply execute_skip
    split_ifs <;> simp
  calc execute doc.actions .empty ⟨[], []⟩
      = execute (.header (UInt32.ofNat doc.nArgs) :: (doc.body.map BodyLine.action ++
          if doc.finalNewline then [.skip] else [])) .empty ⟨[], []⟩ := by
        rw [actions, List.append_assoc, execute_append, execute_skip (by simp)]
        rfl
    _ = execute (doc.body.map BodyLine.action ++ if doc.finalNewline then [.skip] else [])
          (.listed doc.nArgs []) (.full doc.nArgs) := execute_cons hHeader
    _ = .ok (.listed doc.nArgs doc.attacks, .full doc.nArgs) := by
        rw [execute_append, hBody]
        exact hEnd

end Document

/-- Whatever is in memory, reading a printed framework gives all its arguments as
active arguments and its attacks in the order of their lines. Both lists are given
entry by entry. -/
theorem parseI23_document (doc : Document) (locals : Locals) : ∃ af,
    parseI23 locals .empty (some doc.text) = .ok (af,
      ⟨List.range doc.nArgs, List.replicate doc.nArgs 1⟩) ∧
    af.args = doc.nArgs ∧ af.attackers.length = doc.nArgs ∧ af.attacked.length = doc.nArgs ∧
    (∀ target < doc.nArgs, af.attackersOf target = (doc.attacks.filter (·.2 = target)).map (·.1)) ∧
    (∀ source < doc.nArgs, af.attackedBy source = (doc.attacks.filter (·.1 = source)).map (·.2)) ∧
    ∀ a < doc.nArgs, ∀ b < doc.nArgs, (af.attackersOf a).count b = (af.attackedBy b).count a := by
  refine ⟨.listed doc.nArgs doc.attacks, ?_, rfl, by simp [AF.listed], by simp [AF.listed],
    fun target hTarget => attackersOf_listed hTarget _, fun source hSource =>
      attackedBy_listed hSource _,
    fun a ha b hb => count_listed ha hb _⟩
  rw [parseI23_eq, actions_eq doc.reads_lines, doc.execute_actions]
  rfl

example :
    Document.text ⟨2, by decide, [⟨['#'], by decide, by decide⟩],
      [.attack 0 1, .attack 1 0], true⟩ =
    "#\np af 2\n1 2\n2 1\n".toList := by decide

end SerialisationSolver
