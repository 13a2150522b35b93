import SerialisationSolver.Model.Framework

/-! Frameworks built with `set_arguments` and `add_attack` are well-formed, and
their attacks are those that were added. -/
namespace SerialisationSolver.AF

@[simp] theorem attackersOf_setArguments (nArgs a : Nat) :
    (empty.setArguments nArgs).attackersOf a = [] := by
  simp [attackersOf, setArguments, empty, List.getElem?_replicate]
  split <;> rfl

@[simp] theorem attackedBy_setArguments (nArgs a : Nat) :
    (empty.setArguments nArgs).attackedBy a = [] := by
  simp [attackedBy, setArguments, empty, List.getElem?_replicate]
  split <;> rfl

/-- A framework that has just been given its arguments is well-formed, as no list
names anything. -/
theorem setArguments_wellFormed {nArgs : Nat} (hArgs : nArgs < 2 ^ 32) :
    (empty.setArguments nArgs).WellFormed where
  args_lt := hArgs
  attackers_length := by simp [setArguments, empty]
  attacked_length := by simp [setArguments, empty]
  attackers_lt := by simp
  attacked_lt := by simp
  consistent := by simp

private theorem getD_modify_append {lists : List (List Nat)} {i : Nat} (hi : i < lists.length)
    (x j : Nat) : (lists.modify i (· ++ [x])).getD j [] =
      if j = i then lists.getD j [] ++ [x] else lists.getD j [] := by
  rw [List.getD_eq_getElem?_getD, List.getElem?_modify, List.getD_eq_getElem?_getD]
  by_cases hEq : j = i
  · subst hEq
    simp [hi]
  · have hNe : ¬ i = j := fun h => hEq h.symm
    simp [hEq, hNe]

section AddAttack

variable {af af' : AF} {source target : Nat} (hAdd : af.addAttack source target = .ok af')
include hAdd

/-- One entry is appended to each of the two lists, and nothing else changes. The
subscripts were in range, as there would be no result otherwise. -/
theorem addAttack_spec : target < af.attackers.length ∧ source < af.attacked.length ∧
    af'.args = af.args ∧ af'.attackers.length = af.attackers.length ∧
    af'.attacked.length = af.attacked.length ∧
    (∀ a, af'.attackersOf a =
      if a = target then af.attackersOf a ++ [source] else af.attackersOf a) ∧
    ∀ a, af'.attackedBy a =
      if a = source then af.attackedBy a ++ [target] else af.attackedBy a := by
  unfold addAttack at hAdd
  split_ifs at hAdd with hRange
  obtain rfl := Except.ok.inj hAdd
  exact ⟨hRange.1, hRange.2, rfl, List.length_modify .., List.length_modify ..,
    getD_modify_append hRange.1 source, getD_modify_append hRange.2 target⟩

/-- The attack that was added is there, and the others are those that were there
before. -/
theorem addAttack_attacks (a b : Nat) :
    af'.Attacks a b ↔ af.Attacks a b ∨ (a = source ∧ b = target) := by
  obtain ⟨-, -, -, -, -, hAttackers, -⟩ := addAttack_spec hAdd
  simp only [Attacks, hAttackers b]
  grind

/-- An attack in range keeps the framework well-formed: it is entered in both lists,
so that these still agree. -/
theorem addAttack_wellFormed (h : af.WellFormed) : af'.WellFormed := by
  obtain ⟨hTarget, hSource, hArgs, hAttackers, hAttacked, hIn, hOut⟩ := addAttack_spec hAdd
  rw [h.attackers_length] at hTarget
  rw [h.attacked_length] at hSource
  refine ⟨hArgs ▸ h.args_lt, ?_, ?_, ?_, ?_, ?_⟩
  · rw [hAttackers, hArgs, h.attackers_length]
  · rw [hAttacked, hArgs, h.attacked_length]
  · intro a b hAttack
    rw [hIn b] at hAttack
    have hOld := h.attackers_lt a b
    grind
  · intro a b hAttack
    rw [hOut a] at hAttack
    have hOld := h.attacked_lt a b
    grind
  · intro a b
    rw [hIn b, hOut a]
    have hOld := h.consistent a b
    grind

end AddAttack

/-- Adding attacks one after the other keeps a framework well-formed, and afterwards
it has the old ones and those of the list. -/
theorem foldlM_addAttack_spec (attacks : List (Nat × Nat)) {af af' : AF} (h : af.WellFormed)
    (hAll : attacks.foldlM (fun af attack => af.addAttack attack.1 attack.2) af = .ok af') :
    af'.WellFormed ∧ af'.args = af.args ∧
      ∀ a b, af'.Attacks a b ↔ af.Attacks a b ∨ (a, b) ∈ attacks := by
  induction attacks generalizing af with
  | nil =>
      obtain rfl := Except.ok.inj hAll
      exact ⟨h, rfl, by simp⟩
  | cons attack attacks ih =>
      rw [List.foldlM_cons] at hAll
      cases hFirst : af.addAttack attack.1 attack.2 with
      | error fault => simp [hFirst, bind, Except.bind] at hAll
      | ok next =>
          simp only [hFirst] at hAll
          obtain ⟨hWell, hArgs, hAttacks⟩ := ih (addAttack_wellFormed hFirst h) hAll
          refine ⟨hWell, hArgs.trans (addAttack_spec hFirst).2.2.1, fun a b => ?_⟩
          rw [hAttacks, addAttack_attacks hFirst]
          grind

/-- What `build` returns is well-formed and attacks as listed. Repetitions in the
list make no difference to the attacks. -/
theorem build_spec {nArgs : Nat} (hArgs : nArgs < 2 ^ 32) {attacks : List (Nat × Nat)} {af : AF}
    (hBuild : build nArgs attacks = .ok af) :
    af.WellFormed ∧ af.args = nArgs ∧ ∀ a b, af.Attacks a b ↔ (a, b) ∈ attacks := by
  obtain ⟨hWell, hSame, hAttacks⟩ := foldlM_addAttack_spec attacks
    (setArguments_wellFormed hArgs) hBuild
  refine ⟨hWell, hSame, fun a b => ?_⟩
  rw [hAttacks, Attacks, attackersOf_setArguments]
  simp

/-- Attacks between arguments can be added in any order, and none of the writes
leaves the vectors. -/
theorem exists_build {nArgs : Nat} {attacks : List (Nat × Nat)}
    (hRange : ∀ attack ∈ attacks, attack.1 < nArgs ∧ attack.2 < nArgs) :
    ∃ af, build nArgs attacks = .ok af := by
  suffices hAll : ∀ af : AF, af.attackers.length = nArgs → af.attacked.length = nArgs →
      ∃ af', attacks.foldlM (fun af attack => af.addAttack attack.1 attack.2) af = .ok af' from
    hAll (empty.setArguments nArgs) (by simp [setArguments, empty]) (by simp [setArguments, empty])
  induction attacks with
  | nil => exact fun af _ _ => ⟨af, rfl⟩
  | cons attack attacks ih =>
      intro af hAttackers hAttacked
      rw [List.forall_mem_cons] at hRange
      obtain ⟨hSource, hTarget⟩ := hRange.1
      obtain ⟨next, hNext⟩ : ∃ next, af.addAttack attack.1 attack.2 = .ok next :=
        ⟨_, if_pos ⟨hAttackers ▸ hTarget, hAttacked ▸ hSource⟩⟩
      obtain ⟨-, -, -, hLength, hLength', -, -⟩ := addAttack_spec hNext
      rw [List.foldlM_cons, hNext]
      exact ih hRange.2 next (hLength.trans hAttackers) (hLength'.trans hAttacked)

end SerialisationSolver.AF
