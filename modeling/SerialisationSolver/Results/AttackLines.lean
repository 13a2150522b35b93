import SerialisationSolver.Results.ParsingSafety
import Mathlib.Data.List.GetD
import Mathlib.Data.List.TakeDrop

/-! Which attacks a file leaves in the framework. The variables `source` and `target`
of `parse_i23` live outside of its loop and no extraction is checked, so that a line
without two numbers adds an attack that is made from the lines before it. -/
namespace SerialisationSolver

open IStringStream

/-- The line is neither empty nor a comment nor a header, so that the loop calls
`add_attack` for it. -/
def IsAttackLine (line : List Char) : Prop := ∃ c ∈ line.head?, c ≠ '#' ∧ c ≠ 'p'

instance : (line : List Char) → Decidable (IsAttackLine line)
  | [] => .isFalse (by simp [IsAttackLine])
  | c :: _ => decidable_of_iff (c ≠ '#' ∧ c ≠ 'p') (by simp [IsAttackLine])

/-- The two numbers of a line, if it holds two that can be extracted one after the
other. Nothing but the line itself goes in. -/
def twoNumbers (line : List Char) : Option (UInt32 × UInt32) :=
  let (iss, source) := (ofLine line).extractUInt32 0
  let (iss, target) := iss.extractUInt32 0
  if iss.failbit then none else some (source, target)

/-- The attack that a line names by itself, counted from zero in `uint32_t`. A line
that is read as an attack need not name one. -/
def ownAttack (line : List Char) : Option (Nat × Nat) :=
  if IsAttackLine line then
    (twoNumbers line).map fun numbers => ((numbers.1 - 1).toNat, (numbers.2 - 1).toNat)
  else none

/-- The two adjacency lists hold these attacks, in this order and as often, and
nothing else. -/
def AF.HoldsExactly (af : AF) (attacks : List (Nat × Nat)) : Prop :=
  (∀ target, af.attackersOf target = (attacks.filter (·.2 = target)).map (·.1)) ∧
    ∀ source, af.attackedBy source = (attacks.filter (·.1 = source)).map (·.2)

/-- If a file with these lines is read without a fault, the attacks in the framework
are the concatenation of what its lines name, each by itself. -/
def ReadsOwn (locals : Locals) (lines : List (List Char)) : Prop :=
  ∀ af active, parseI23 locals .empty (some (['\n'].intercalate lines)) = .ok (af, active) →
    af.HoldsExactly (lines.filterMap ownAttack)

/-- This holds after every line of the file. What is in the framework after some
lines is what `parse_i23` makes of the file that ends there; the whole file is one
of these. -/
def AttacksFromOwnLines (locals : Locals) (text : List Char) : Prop :=
  ∀ lines, lines <+: fileLines text → ReadsOwn locals lines

section Sizes

/-- The size of both vectors after an action, which only headers change. -/
def Action.resize (size : Nat) : Action → Nat
  | .header nArgs => nArgs.toNat
  | _ => size

/-- The size of both vectors after some actions: the number of the last header. -/
def sizeAfter (acts : List Action) : Nat := acts.foldl Action.resize 0

/-- The action neither writes outside of the vectors nor lets the counter of the
header loop run over. -/
def Action.InRange (size : Nat) : Action → Prop
  | .skip => True
  | .header nArgs => nArgs.toNat < 2 ^ 31 - 1
  | .attack source target => source.toNat < size ∧ target.toNat < size

/-- All actions are in range, each for the size that those before it leave. -/
def StaysInRange (acts : List Action) : Prop :=
  ∀ before action, before ++ [action] <+: acts → action.InRange (sizeAfter before)

theorem sizeAfter_concat (acts : List Action) (action : Action) :
    sizeAfter (acts ++ [action]) = action.resize (sizeAfter acts) := by
  simp [sizeAfter]

theorem staysInRange_nil : StaysInRange [] := by
  intro before action hPrefix
  simp at hPrefix

/-- One more action is in range if it is so for the size that the others leave. -/
theorem staysInRange_concat {acts : List Action} {action : Action} :
    StaysInRange (acts ++ [action]) ↔ StaysInRange acts ∧ action.InRange (sizeAfter acts) := by
  constructor
  · intro hAll
    refine ⟨fun before other hPrefix => ?_, hAll acts action List.prefix_rfl⟩
    exact hAll before other (hPrefix.trans (List.prefix_append _ _))
  · rintro ⟨hBefore, hLast⟩ before other hPrefix
    rcases List.prefix_concat_iff.mp hPrefix with hSame | hShort
    · obtain ⟨rfl, hEq⟩ := List.append_inj' hSame rfl
      obtain rfl := List.singleton_inj.mp hEq
      exact hLast
    · exact hBefore before other hShort

variable {af : AF} {active : IterableBitSet} {size : Nat}

/-- Both vectors have this size. A header gives it to both, and attacks do not
change it. -/
structure AF.HasSize (af : AF) (size : Nat) : Prop where
  attackers : af.attackers.length = size
  attacked : af.attacked.length = size

/-- An action in range succeeds, and any other one is a fault. The attacks in the
framework play no part in this. -/
theorem AF.HasSize.perform_iff (h : af.HasSize size) (action : Action) :
    (∃ af' active', perform af active action = .ok (af', active')) ↔ action.InRange size := by
  cases action with
  | skip => exact iff_of_true ⟨af, active, rfl⟩ trivial
  | header nArgs =>
      constructor
      · rintro ⟨af', active', hDone⟩
        by_contra hLarge
        rw [perform_header_fails hLarge] at hDone
        cases hDone
      · exact fun hSmall => ⟨_, _, perform_header hSmall⟩
  | attack source target =>
      constructor
      · rintro ⟨af', active', hDone⟩
        rcases addAttack_cases af source.toNat target.toNat with ⟨next, hAdd⟩ | hFails
        · obtain ⟨hTarget, hSource, -⟩ := AF.addAttack_spec hAdd
          exact ⟨h.attacked ▸ hSource, h.attackers ▸ hTarget⟩
        · rw [perform_attack_fails hFails] at hDone
          cases hDone
      · rintro ⟨hSource, hTarget⟩
        have hAdd : ∃ next, af.addAttack source.toNat target.toNat = .ok next :=
          ⟨_, if_pos ⟨h.attackers ▸ hTarget, h.attacked ▸ hSource⟩⟩
        obtain ⟨next, hNext⟩ := hAdd
        exact ⟨next, active, perform_attack hNext⟩

/-- After an action that succeeds both vectors have the size that the action gives
them. -/
theorem AF.HasSize.perform (h : af.HasSize size) {action : Action} {af' : AF}
    {active' : IterableBitSet}
    (hDone : SerialisationSolver.perform af active action = .ok (af', active')) :
    af'.HasSize (action.resize size) := by
  cases action with
  | skip =>
      obtain ⟨rfl, -⟩ := Prod.mk.inj (Except.ok.inj hDone)
      exact h
  | header nArgs =>
      have hSmall : nArgs.toNat < 2 ^ 31 - 1 := (h.perform_iff _).mp ⟨_, _, hDone⟩
      rw [perform_header hSmall] at hDone
      obtain ⟨rfl, -⟩ := Prod.mk.inj (Except.ok.inj hDone)
      exact ⟨List.takeD_length .., List.takeD_length ..⟩
  | attack source target =>
      rcases addAttack_cases af source.toNat target.toNat with ⟨next, hAdd⟩ | hFails
      · rw [perform_attack hAdd] at hDone
        obtain ⟨rfl, -⟩ := Prod.mk.inj (Except.ok.inj hDone)
        obtain ⟨-, -, -, hAttackers, hAttacked, -⟩ := AF.addAttack_spec hAdd
        exact ⟨hAttackers.trans h.attackers, hAttacked.trans h.attacked⟩
      · rw [perform_attack_fails hFails] at hDone
        cases hDone

end Sizes

section Rows

variable {af af' : AF} {attacks : List (Nat × Nat)} {size : Nat}

theorem AF.holdsExactly_empty : AF.empty.HoldsExactly [] :=
  ⟨fun _ => rfl, fun _ => rfl⟩

/-- Something is in a row only if the row is one of the vector, as `getD` stands for
the empty row elsewhere. -/
private theorem lt_of_mem_row {rows : List (List Nat)} {i x : Nat} (hMem : x ∈ rows.getD i []) :
    i < rows.length := by
  by_contra hOut
  rw [List.getD_eq_default _ _ (Nat.le_of_not_lt hOut)] at hMem
  exact absurd hMem List.not_mem_nil

/-- What is held has its rows within the vectors, as rows outside of them are empty. -/
theorem AF.HoldsExactly.lt (h : af.HoldsExactly attacks) (hSize : af.HasSize size) :
    ∀ attack ∈ attacks, attack.1 < size ∧ attack.2 < size := by
  rintro ⟨source, target⟩ hMem
  constructor
  · have hRow : target ∈ af.attackedBy source := by
      rw [h.2 source]
      exact List.mem_map.mpr ⟨(source, target), by simpa using hMem, rfl⟩
    exact hSize.attacked ▸ lt_of_mem_row hRow
  · have hRow : source ∈ af.attackersOf target := by
      rw [h.1 target]
      exact List.mem_map.mpr ⟨(source, target), by simpa using hMem, rfl⟩
    exact hSize.attackers ▸ lt_of_mem_row hRow

/-- An attack that is added comes behind those that were held, in the lists of its
own two arguments. -/
theorem AF.HoldsExactly.addAttack (h : af.HoldsExactly attacks) {source target : Nat}
    (hAdd : af.addAttack source target = .ok af') :
    af'.HoldsExactly (attacks ++ [(source, target)]) := by
  obtain ⟨-, -, -, -, -, hAttackers, hAttacked⟩ := AF.addAttack_spec hAdd
  constructor
  · intro b
    rw [hAttackers b, h.1 b]
    by_cases hHere : b = target
    · simp [hHere]
    · simp [hHere, Ne.symm hHere]
  · intro a
    rw [hAttacked a, h.2 a]
    by_cases hHere : a = source
    · simp [hHere]
    · simp [hHere, Ne.symm hHere]

/-- With an attack added, the framework does not hold only what it held before: a
list is longer by one. -/
theorem AF.HoldsExactly.not_addAttack (h : af.HoldsExactly attacks) {source target : Nat}
    (hAdd : af.addAttack source target = .ok af') : ¬ af'.HoldsExactly attacks := by
  intro hSame
  have hRow := (h.addAttack hAdd).1 target
  rw [hSame.1 target] at hRow
  simp at hRow

private theorem getD_takeD (rows : List (List Nat)) (n i : Nat) :
    (rows.takeD n []).getD i [] = if i < n then rows.getD i [] else [] := by
  induction n generalizing rows i with
  | zero => simp
  | succ n ih =>
      rw [List.takeD_succ]
      cases i with
      | zero => cases rows <;> rfl
      | succ i =>
          rw [List.getD_cons_succ, ih]
          cases rows <;> simp

/-- A row is the same after `resize` if it was empty or is not cut off. -/
private theorem getD_takeD_of_row {rows : List (List Nat)} {n i : Nat} {row : List Nat}
    (hRow : rows.getD i [] = row) (hCut : ¬ i < n → row = []) :
    (rows.takeD n []).getD i [] = row := by
  rw [getD_takeD]
  split_ifs with hKept
  · exact hRow
  · exact (hCut hKept).symm

/-- `resize` keeps what is held exactly if no row that it cuts off is in use. -/
theorem AF.HoldsExactly.setArguments_iff (h : af.HoldsExactly attacks) (nArgs : Nat) :
    (af.setArguments nArgs).HoldsExactly attacks ↔
      ∀ attack ∈ attacks, attack.1 < nArgs ∧ attack.2 < nArgs := by
  constructor
  · intro hSame
    exact hSame.lt ⟨List.takeD_length .., List.takeD_length ..⟩
  · intro hAll
    constructor
    · intro target
      refine getD_takeD_of_row (h.1 target) fun hCut => ?_
      have hNone : attacks.filter (·.2 = target) = [] := by
        refine List.filter_eq_nil_iff.mpr fun attack hMem hEq => hCut ?_
        exact of_decide_eq_true hEq ▸ (hAll attack hMem).2
      rw [hNone, List.map_nil]
    · intro source
      refine getD_takeD_of_row (h.2 source) fun hCut => ?_
      have hNone : attacks.filter (·.1 = source) = [] := by
        refine List.filter_eq_nil_iff.mpr fun attack hMem hEq => hCut ?_
        exact of_decide_eq_true hEq ▸ (hAll attack hMem).1
      rw [hNone, List.map_nil]

end Rows

section Lines

variable {line : List Char}

/-- Two numbers on the line leave nothing to the variables: both are overwritten
before the attack is made. -/
theorem readLine_of_numbers (hLine : IsAttackLine line) {numbers : UInt32 × UInt32}
    (hNumbers : twoNumbers line = some numbers) (locals : Locals) :
    (readLine locals line).2 = .attack (numbers.1 - 1) (numbers.2 - 1) := by
  obtain ⟨c, hc, hComment, hHeader⟩ := hLine
  obtain ⟨rest, rfl⟩ := List.head?_eq_some_iff.mp hc
  unfold twoNumbers at hNumbers
  generalize hFirst : extractUInt32 (ofLine (c :: rest)) 0 = first at hNumbers
  obtain ⟨iss, source⟩ := first
  generalize hSecond : extractUInt32 iss 0 = second at hNumbers
  obtain ⟨iss', target⟩ := second
  cases hGood' : iss'.failbit with
  | true => simp [hGood', hSecond] at hNumbers
  | false =>
      -- The second extraction can only succeed if the first one has.
      have hGood : iss.failbit = false := by
        by_contra hFail
        rw [extractUInt32_of_failbit (by simpa using hFail)] at hSecond
        obtain ⟨rfl, -⟩ := Prod.mk.inj hSecond
        exact hFail hGood'
      have hSource :=
        extractUInt32_congr ((congrArg (·.1.failbit) hFirst).trans hGood) locals.source
      have hTarget :=
        extractUInt32_congr ((congrArg (·.1.failbit) hSecond).trans hGood') locals.target
      simp only [hSecond, hGood', Bool.false_eq_true, if_false, Option.some.injEq] at hNumbers
      subst hNumbers
      rw [readLine, if_neg hComment, if_neg hHeader]
      simp only [hSource, hFirst, hTarget, hSecond]

/-- What a line can make the loop do. An attack line calls `add_attack` in any case,
with the attack that it names if it names one. -/
theorem readLine_cases (locals : Locals) (line : List Char) :
    (¬ IsAttackLine line ∧ (readLine locals line).2 = .skip) ∨
    (¬ IsAttackLine line ∧ ∃ nArgs, (readLine locals line).2 = .header nArgs) ∨
    (IsAttackLine line ∧ ∃ source target, (readLine locals line).2 = .attack source target ∧
      (twoNumbers line ≠ none → ownAttack line = some (source.toNat, target.toNat))) := by
  by_cases hLine : IsAttackLine line
  · refine Or.inr (Or.inr ⟨hLine, ?_⟩)
    cases hNumbers : twoNumbers line with
    | none =>
        obtain ⟨c, hc, hComment, hHeader⟩ := hLine
        obtain ⟨rest, rfl⟩ := List.head?_eq_some_iff.mp hc
        rw [readLine, if_neg hComment, if_neg hHeader]
        exact ⟨_, _, rfl, fun hSome => absurd rfl hSome⟩
    | some numbers =>
        refine ⟨_, _, readLine_of_numbers hLine hNumbers locals, fun _ => ?_⟩
        rw [ownAttack, if_pos hLine, hNumbers]
        rfl
  · cases line with
    | nil => exact Or.inl ⟨hLine, rfl⟩
    | cons c rest =>
        rcases eq_or_ne c '#' with rfl | hComment
        · exact Or.inl ⟨hLine, rfl⟩
        · rcases eq_or_ne c 'p' with rfl | hHeader
          · exact Or.inr (Or.inl ⟨hLine, _, rfl⟩)
          · exact absurd ⟨c, rfl, hComment, hHeader⟩ hLine

theorem ownAttack_eq_none (hLine : IsAttackLine line → twoNumbers line = none) :
    ownAttack line = none := by
  unfold ownAttack
  split_ifs with hHere
  · rw [hLine hHere]
    rfl
  · rfl

variable {af af' : AF} {active active' : IterableBitSet} {attacks : List (Nat × Nat)} {size : Nat}

/-- The step of the loop. Performing a line adds to the framework what the line
names exactly if an attack line holds two numbers and a header cuts off no row that
is in use. -/
theorem AF.HoldsExactly.perform_iff (h : af.HoldsExactly attacks) (hSize : af.HasSize size)
    {locals : Locals} (hDone : perform af active (readLine locals line).2 = .ok (af', active')) :
    af'.HoldsExactly (attacks ++ (ownAttack line).toList) ↔
      (IsAttackLine line → twoNumbers line ≠ none) ∧
        ∀ attack ∈ attacks ++ (ownAttack line).toList,
          attack.1 < (readLine locals line).2.resize size ∧
            attack.2 < (readLine locals line).2.resize size := by
  have hNext := hSize.perform hDone
  rcases readLine_cases locals line with ⟨hLine, hAct⟩ | ⟨hLine, nArgs, hAct⟩ | ⟨hLine, source,
    target, hAct, hOwn⟩
  · rw [ownAttack_eq_none fun hHere => absurd hHere hLine, Option.toList_none, List.append_nil]
    rw [hAct] at hDone hNext ⊢
    obtain ⟨rfl, -⟩ := Prod.mk.inj (Except.ok.inj hDone)
    exact iff_of_true h ⟨fun hHere => absurd hHere hLine, h.lt hNext⟩
  · rw [ownAttack_eq_none fun hHere => absurd hHere hLine, Option.toList_none, List.append_nil]
    rw [hAct] at hDone ⊢
    have hSmall : nArgs.toNat < 2 ^ 31 - 1 := (hSize.perform_iff _).mp ⟨_, _, hDone⟩
    rw [perform_header hSmall] at hDone
    obtain ⟨rfl, -⟩ := Prod.mk.inj (Except.ok.inj hDone)
    rw [h.setArguments_iff, and_iff_right fun hHere => absurd hHere hLine]
    rfl
  · rw [hAct] at hDone hNext ⊢
    rcases addAttack_cases af source.toNat target.toNat with ⟨next, hAdd⟩ | hFails
    · rw [perform_attack hAdd] at hDone
      obtain ⟨rfl, -⟩ := Prod.mk.inj (Except.ok.inj hDone)
      by_cases hNumbers : twoNumbers line = none
      · rw [ownAttack_eq_none fun _ => hNumbers, Option.toList_none, List.append_nil]
        exact iff_of_false (h.not_addAttack hAdd) fun hBoth => hBoth.1 hLine hNumbers
      · rw [hOwn hNumbers, Option.toList_some]
        exact iff_of_true (h.addAttack hAdd) ⟨fun _ => hNumbers, (h.addAttack hAdd).lt hNext⟩
    · rw [perform_attack_fails hFails] at hDone
      cases hDone

end Lines

section Beginnings

variable {locals : Locals} {lines : List (List Char)} {line : List Char}

/-- The variables of the loop after some lines. Headers leave the numbers of an
attack alone, and attacks that of a header. -/
def localsAfter (locals : Locals) (lines : List (List Char)) : Locals :=
  lines.foldl (fun locals line => (readLine locals line).1) locals

theorem actions_concat (locals : Locals) (lines : List (List Char)) (line : List Char) :
    actions locals (lines ++ [line]) =
      actions locals lines ++ [(readLine (localsAfter locals lines) line).2] := by
  induction lines generalizing locals with
  | nil => rfl
  | cons first lines ih =>
      rw [List.cons_append, actions, ih]
      rfl

theorem single_of_mem_fileLines (text : List Char) : ∀ line ∈ fileLines text, '\n' ∉ line := by
  induction hLength : text.length using Nat.strong_induction_on generalizing text with
  | _ n ih =>
      by_cases hText : '\n' ∈ text
      · obtain ⟨line, rest, rfl, hLine⟩ := List.eq_append_cons_of_mem hText
        rw [fileLines, List.splitOn_append_cons_self_of_not_mem hLine]
        simp only [List.length_append, List.length_cons] at hLength
        exact List.forall_mem_cons.mpr ⟨hLine, ih rest.length (by omega) rest rfl⟩
      · rw [fileLines, List.splitOn_eq_singleton hText]
        exact List.forall_mem_singleton.mpr hText

/-- Lines without line ends stay so when the last one is left out. -/
private theorem single_of_concat (hSingle : ∀ other ∈ lines ++ [line], '\n' ∉ other) :
    ∀ other ∈ lines, '\n' ∉ other :=
  fun other hOther => hSingle other (List.mem_append_left _ hOther)

/-- A file that is put together from lines does what these lines say. -/
theorem parseI23_intercalate (hSingle : ∀ line ∈ lines, '\n' ∉ line) (aaf : AF) :
    parseI23 locals aaf (some (['\n'].intercalate lines)) =
      execute (actions locals lines) aaf ⟨[], []⟩ := by
  rw [parseI23_eq]
  by_cases hNone : lines = []
  · subst hNone
    rfl
  · rw [fileLines, List.splitOn_intercalate '\n' hSingle hNone]

/-- One more line of the file is one more pass through the loop, on what the lines
before it leave. -/
theorem parseI23_concat (hSingle : ∀ other ∈ lines ++ [line], '\n' ∉ other) (aaf : AF) :
    parseI23 locals aaf (some (['\n'].intercalate (lines ++ [line]))) =
      parseI23 locals aaf (some (['\n'].intercalate lines)) >>= fun (af, active) =>
        perform af active (readLine (localsAfter locals lines) line).2 := by
  have hBefore := single_of_concat hSingle
  rw [parseI23_intercalate hSingle, parseI23_intercalate hBefore, actions_concat, execute_append]
  refine bind_congr fun next => ?_
  simp only [execute]
  exact bind_pure _

/-- As long as the actions stay in range the lines are read, and both vectors have
the size of the last header. -/
theorem parseI23_of_staysInRange (hSingle : ∀ line ∈ lines, '\n' ∉ line)
    (hRange : StaysInRange (actions locals lines)) : ∃ af active,
      parseI23 locals .empty (some (['\n'].intercalate lines)) = .ok (af, active) ∧
        af.HasSize (sizeAfter (actions locals lines)) := by
  induction lines using List.reverseRecOn with
  | nil => exact ⟨.empty, ⟨[], []⟩, rfl, rfl, rfl⟩
  | append_singleton lines line ih =>
      rw [actions_concat, staysInRange_concat] at hRange
      have hBefore := single_of_concat hSingle
      obtain ⟨af, active, hRead, hSize⟩ := ih hBefore hRange.1
      have hPerforms : ∃ af' active',
          perform af active (readLine (localsAfter locals lines) line).2 = .ok (af', active') :=
        (hSize.perform_iff _).mpr hRange.2
      obtain ⟨af', active', hDone⟩ := hPerforms
      refine ⟨af', active', ?_, ?_⟩
      · rw [parseI23_concat hSingle, hRead]
        exact hDone
      · rw [actions_concat, sizeAfter_concat]
        exact hSize.perform hDone

/-- What is read without a fault has stayed in range, line by line. -/
theorem staysInRange_of_parseI23 (hSingle : ∀ line ∈ lines, '\n' ∉ line) {af : AF}
    {active : IterableBitSet}
    (hRead : parseI23 locals .empty (some (['\n'].intercalate lines)) = .ok (af, active)) :
    StaysInRange (actions locals lines) := by
  induction lines using List.reverseRecOn generalizing af active with
  | nil => exact staysInRange_nil
  | append_singleton lines line ih =>
      have hBefore := single_of_concat hSingle
      rw [parseI23_concat hSingle] at hRead
      cases hFirst : parseI23 locals .empty (some (['\n'].intercalate lines)) with
      | error fault => simp [hFirst, bind, Except.bind] at hRead
      | ok middle =>
          obtain ⟨af₀, active₀⟩ := middle
          rw [hFirst] at hRead
          have hRange := ih hBefore hFirst
          obtain ⟨af₁, active₁, hSame, hSize⟩ := parseI23_of_staysInRange hBefore hRange
          obtain ⟨rfl, rfl⟩ := Prod.mk.inj (Except.ok.inj (hFirst.symm.trans hSame))
          rw [actions_concat, staysInRange_concat]
          exact ⟨hRange, (hSize.perform_iff _).mp ⟨af, active, hRead⟩⟩

/-- If the lines stay in range, then attack lines hold two numbers, and the last
header counts the arguments of all attacks that were named so far. -/
def NamesOwn (locals : Locals) (lines : List (List Char)) : Prop :=
  StaysInRange (actions locals lines) →
    (∀ line ∈ lines, IsAttackLine line → twoNumbers line ≠ none) ∧
      ∀ attack ∈ lines.filterMap ownAttack, attack.1 < sizeAfter (actions locals lines) ∧
        attack.2 < sizeAfter (actions locals lines)

theorem filterMap_ownAttack_concat (lines : List (List Char)) (line : List Char) :
    (lines ++ [line]).filterMap ownAttack = lines.filterMap ownAttack ++
      (ownAttack line).toList := by
  rw [List.filterMap_append]
  cases hOwn : ownAttack line with
  | none => simp [hOwn]
  | some attack => simp [hOwn]

theorem readsOwn_nil : ReadsOwn locals [] := by
  intro af active hRead
  obtain ⟨rfl, -⟩ := Prod.mk.inj (Except.ok.inj hRead)
  exact AF.holdsExactly_empty

theorem namesOwn_nil : NamesOwn locals [] := fun _ => ⟨by simp, by simp⟩

/-- One more line keeps the one exactly if it keeps the other, since the framework
before it holds what its lines name. -/
theorem readsOwn_concat_iff (hSingle : ∀ other ∈ lines ++ [line], '\n' ∉ other)
    (hReads : ReadsOwn locals lines) (hNames : NamesOwn locals lines) :
    ReadsOwn locals (lines ++ [line]) ↔ NamesOwn locals (lines ++ [line]) := by
  have hBefore := single_of_concat hSingle
  by_cases hRange : StaysInRange (actions locals (lines ++ [line]))
  · obtain ⟨af', active', hRead', -⟩ := parseI23_of_staysInRange hSingle hRange
    have hOld := hRange
    rw [actions_concat, staysInRange_concat] at hOld
    obtain ⟨af, active, hRead, hSize⟩ := parseI23_of_staysInRange hBefore hOld.1
    have hDone := hRead'
    rw [parseI23_concat hSingle, hRead] at hDone
    have hLine := (hReads af active hRead).perform_iff hSize hDone
    rw [← sizeAfter_concat, ← actions_concat, ← filterMap_ownAttack_concat] at hLine
    have hReadsIff : ReadsOwn locals (lines ++ [line]) ↔
        af'.HoldsExactly ((lines ++ [line]).filterMap ownAttack) := by
      constructor
      · exact fun hAll => hAll af' active' hRead'
      · intro hHolds af₁ active₁ hSame
        obtain ⟨rfl, -⟩ := Prod.mk.inj (Except.ok.inj (hRead'.symm.trans hSame))
        exact hHolds
    rw [hReadsIff, hLine, NamesOwn, imp_iff_right hRange, List.forall_mem_append,
      List.forall_mem_singleton, and_assoc, and_iff_right (hNames hOld.1).1]
  · refine iff_of_true (fun af active hRead => ?_) fun hStays => absurd hStays hRange
    exact absurd (staysInRange_of_parseI23 hSingle hRead) hRange

/-- Over all beginnings the two are the same. By induction on the lines, from the
last one, with the step of the loop. -/
theorem forall_readsOwn_iff (hSingle : ∀ line ∈ lines, '\n' ∉ line) :
    (∀ before, before <+: lines → ReadsOwn locals before) ↔
      ∀ before, before <+: lines → NamesOwn locals before := by
  induction lines using List.reverseRecOn with
  | nil =>
      simp only [List.prefix_nil, forall_eq]
      exact iff_of_true readsOwn_nil namesOwn_nil
  | append_singleton lines line ih =>
      simp only [List.prefix_concat_iff, forall_eq_or_imp]
      have hSame := ih (single_of_concat hSingle)
      rw [and_comm, and_comm (a := NamesOwn locals (lines ++ [line])), hSame]
      refine and_congr_right fun hNames => ?_
      have hReads := hSame.mpr hNames
      exact readsOwn_concat_iff hSingle (hReads lines List.prefix_rfl)
        (hNames lines List.prefix_rfl)

end Beginnings

/-- Exactly when every attack comes from its own line, whatever is in memory: as far
as the file is read without a fault, every attack line holds two numbers, and every
header counts the arguments of all attacks that the lines before it name. -/
theorem attacksFromOwnLines_iff (locals : Locals) (text : List Char) :
    AttacksFromOwnLines locals text ↔
    ∀ lines, lines <+: fileLines text → StaysInRange (actions locals lines) →
      (∀ line ∈ lines, IsAttackLine line → twoNumbers line ≠ none) ∧
        ∀ attack ∈ lines.filterMap ownAttack, attack.1 < sizeAfter (actions locals lines) ∧
          attack.2 < sizeAfter (actions locals lines) :=
  forall_readsOwn_iff (single_of_mem_fileLines text)

/-- The line that holds a space repeats the attack of the line before it: `1` then
has two attackers `0`. -/
theorem not_attacksFromOwnLines_blank :
    ¬ AttacksFromOwnLines ⟨0, 0, 0⟩ "p af 2\n1 2\n ".toList := by
  intro hOwn
  have hRead : parseI23 ⟨0, 0, 0⟩ .empty (some "p af 2\n1 2\n ".toList) =
      .ok (⟨2, [[], [0, 0]], [[1, 1], []]⟩, .full 2) := by decide
  have hText : ['\n'].intercalate ["p af 2".toList, "1 2".toList, " ".toList] =
      "p af 2\n1 2\n ".toList := by
    decide
  have hLines : fileLines "p af 2\n1 2\n ".toList =
      ["p af 2".toList, "1 2".toList, " ".toList] := by decide
  rw [← hText] at hRead
  have hRow := (hOwn _ (hLines ▸ List.prefix_rfl) _ _ hRead).1 1
  revert hRow
  decide

end SerialisationSolver
