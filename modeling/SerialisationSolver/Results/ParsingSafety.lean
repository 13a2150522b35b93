import SerialisationSolver.Correctness.Parse
import SerialisationSolver.Correctness.Reduct

/-! Which files `parse_i23` reads safely. It checks neither the numbers that it reads
nor how often a header occurs. -/
namespace SerialisationSolver

/-- What every later algorithm relies on when it indexes the vectors: their sizes,
the numbers in them, and the active arguments with their bits. -/
structure Consistent (af : AF) (active : IterableBitSet) : Prop where
  attackers_length : af.attackers.length = af.args
  attacked_length : af.attacked.length = af.args
  attackers_lt : ∀ a b, a ∈ af.attackersOf b → a < af.args
  attacked_lt : ∀ a b, b ∈ af.attackedBy a → b < af.args
  nodup : active.array.Nodup
  bitset_length : active.bitset.length = af.args
  bits : ∀ a, active.test a = true ↔ a ∈ active.array

/-- Consistent data is returned, or the program stops with an error. It does neither
if it writes outside of a vector or if its counter runs over. -/
def Safe : Except Fault (AF × IterableBitSet) → Prop
  | .ok (af, active) => Consistent af active
  | .error fault => fault = .exit

/-- The file is read safely while `locals` is in memory, into a framework that is
empty before. -/
def ParsesSafely (locals : Locals) (text : List Char) : Prop :=
  Safe (parseI23 locals .empty (some text))

/-- Numbers are read in an order that never leaves the vectors: a header comes while
there are no arguments, and attacks are between arguments. -/
def Orderly : Nat → List Action → Prop
  | _, [] => True
  | size, .skip :: rest => Orderly size rest
  | size, .header nArgs :: rest =>
      size = 0 ∧ nArgs.toNat < 2 ^ 31 - 1 ∧ Orderly nArgs.toNat rest
  | size, .attack source target :: rest =>
      source.toNat < size ∧ target.toNat < size ∧ Orderly size rest

section Execution

variable {af : AF} {active : IterableBitSet} {size : Nat}

/-- A state that no header has spoilt: a well-formed framework of which all
arguments are active. -/
structure Clean (size : Nat) (af : AF) (active : IterableBitSet) : Prop where
  wellFormed : af.WellFormed
  args : af.args = size
  active : active = .full size

theorem clean_empty : Clean 0 .empty ⟨[], []⟩ :=
  ⟨AF.setArguments_wellFormed (show 0 < 2 ^ 32 by decide), rfl, rfl⟩

theorem Clean.consistent (h : Clean size af active) : Consistent af active := by
  obtain ⟨hWell, rfl, rfl⟩ := h
  exact ⟨hWell.attackers_length, hWell.attacked_length, hWell.attackers_lt, hWell.attacked_lt,
    List.nodup_range, by simp [IterableBitSet.full], full_test _⟩

/-- Argument 0 is active although there are no arguments, or it is active twice. No
line can repair this, since the array is only ever appended to. -/
structure Spoilt (af : AF) (active : IterableBitSet) : Prop where
  mem : 0 ∈ active.array
  bad : af.args = 0 ∨ ¬ active.array.Nodup

theorem Spoilt.not_consistent (h : Spoilt af active) : ¬ Consistent af active := by
  intro hConsistent
  cases h.bad with
  | inl hNone =>
      have hTest := (hConsistent.bits 0).mpr h.mem
      have hLength := hConsistent.bitset_length.trans hNone
      simp [IterableBitSet.test, List.eq_nil_of_length_eq_zero hLength] at hTest
  | inr hTwice => exact hTwice hConsistent.nodup

/-- A header on top of active arguments spoils the state, and keeps it spoilt, as it
appends argument 0 again or removes all arguments. -/
theorem spoilt_header (hMem : 0 ∈ active.array) (nArgs : Nat) (bitset : List UInt8) :
    Spoilt (af.setArguments nArgs) ⟨active.array ++ List.range nArgs, bitset⟩ where
  mem := List.mem_append_left _ hMem
  bad := by
    rcases Nat.eq_zero_or_pos nArgs with rfl | hPos
    · exact Or.inl rfl
    · refine Or.inr fun hNodup => ?_
      exact (List.nodup_append.mp hNodup).2.2 0 hMem 0 (List.mem_range.mpr hPos) rfl

/-- A header resizes the vectors and appends all arguments to the array. -/
theorem perform_header {nArgs : UInt32} (hSmall : nArgs.toNat < 2 ^ 31 - 1) :
    perform af active (.header nArgs) = .ok (af.setArguments nArgs.toNat,
      ⟨active.array ++ List.range nArgs.toNat, active.bitset.takeD nArgs.toNat 1⟩) := if_pos hSmall

theorem perform_header_fails {nArgs : UInt32} (hLarge : ¬ nArgs.toNat < 2 ^ 31 - 1) :
    perform af active (.header nArgs) = .error .overflow := if_neg hLarge

/-- An attack within the vectors is added, and the active arguments stay as they
are. -/
theorem perform_attack {source target : UInt32} {af' : AF}
    (hAdd : af.addAttack source.toNat target.toNat = .ok af') :
    perform af active (.attack source target) = .ok (af', active) := by
  rw [perform, hAdd]
  rfl

theorem perform_attack_fails {source target : UInt32} {fault : Fault}
    (hAdd : af.addAttack source.toNat target.toNat = .error fault) :
    perform af active (.attack source target) = .error fault := by
  rw [perform, hAdd]
  rfl

theorem addAttack_cases (af : AF) (source target : Nat) :
    (∃ af', af.addAttack source target = .ok af') ∨
      af.addAttack source target = .error .outOfRange := by
  unfold AF.addAttack
  split_ifs
  · exact Or.inl ⟨_, rfl⟩
  · exact Or.inr rfl

/-- A spoilt state stays spoilt, whatever lines follow, so that no consistent data
comes out of it. -/
theorem Spoilt.not_safe (h : Spoilt af active) (acts : List Action) :
    ¬ Safe (execute acts af active) := by
  induction acts generalizing af active with
  | nil => exact h.not_consistent
  | cons action acts ih =>
      cases action with
      | skip => exact ih h
      | header nArgs =>
          by_cases hSmall : nArgs.toNat < 2 ^ 31 - 1
          · rw [execute_cons (perform_header hSmall)]
            exact ih (spoilt_header h.mem _ _)
          · rw [execute_fails (perform_header_fails hSmall)]
            exact fun hEq => by cases hEq
      | attack source target =>
          rcases addAttack_cases af source.toNat target.toNat with ⟨af', hAdd⟩ | hAdd
          · rw [execute_cons (perform_attack hAdd)]
            exact ih ⟨h.mem, (AF.addAttack_spec hAdd).2.2.1 ▸ h.bad⟩
          · rw [execute_fails (perform_attack_fails hAdd)]
            exact fun hEq => by cases hEq

theorem Clean.header (h : Clean 0 af active) {nArgs : Nat} (hSmall : nArgs < 2 ^ 31 - 1) :
    Clean nArgs (af.setArguments nArgs) ⟨active.array ++ List.range nArgs,
      active.bitset.takeD nArgs 1⟩ := by
  obtain ⟨hWell, hArgs, rfl⟩ := h
  have hEmpty : af = .empty := by
    have hAttackers := List.eq_nil_of_length_eq_zero (hWell.attackers_length.trans hArgs)
    have hAttacked := List.eq_nil_of_length_eq_zero (hWell.attacked_length.trans hArgs)
    cases af
    simp_all [AF.empty]
  rw [hEmpty]
  exact ⟨AF.setArguments_wellFormed (by omega), rfl, by simp [IterableBitSet.full]⟩

theorem Clean.attack (h : Clean size af active) {source target : Nat} (hSource : source < size)
    (hTarget : target < size) : ∃ af', af.addAttack source target = .ok af' ∧
      Clean size af' active := by
  obtain ⟨hWell, rfl, rfl⟩ := h
  rcases addAttack_cases af source target with ⟨af', hAdd⟩ | hFails
  · exact ⟨af', hAdd, AF.addAttack_wellFormed hAdd hWell, (AF.addAttack_spec hAdd).2.2.1, rfl⟩
  · rw [AF.addAttack, if_pos ⟨hWell.attackers_length ▸ hTarget,
      hWell.attacked_length ▸ hSource⟩] at hFails
    cases hFails

/-- From a clean state exactly the orderly actions are safe. By induction on the
actions: the first one that is out of order fails or spoils the state. -/
theorem Clean.safe_iff (h : Clean size af active) (acts : List Action) :
    Safe (execute acts af active) ↔ Orderly size acts := by
  induction acts generalizing size af active with
  | nil => exact iff_of_true h.consistent trivial
  | cons action acts ih =>
      cases action with
      | skip => exact ih h
      | header nArgs =>
          by_cases hSmall : nArgs.toNat < 2 ^ 31 - 1
          · rw [execute_cons (perform_header hSmall)]
            rcases Nat.eq_zero_or_pos size with rfl | hPos
            · rw [ih (h.header hSmall), Orderly]
              simp only [hSmall, true_and]
            · have hMem : 0 ∈ active.array := by
                rw [h.active]
                exact mem_full.mpr hPos
              refine iff_of_false ((spoilt_header hMem _ _).not_safe acts) fun hOrderly => ?_
              exact hPos.ne' hOrderly.1
          · rw [execute_fails (perform_header_fails hSmall)]
            exact iff_of_false (fun hEq => by cases hEq) fun hOrderly => hSmall hOrderly.2.1
      | attack source target =>
          by_cases hRange : source.toNat < size ∧ target.toNat < size
          · obtain ⟨af', hAdd, hClean⟩ := h.attack hRange.1 hRange.2
            rw [execute_cons (perform_attack hAdd), ih hClean, Orderly]
            simp only [hRange, true_and]
          · rcases addAttack_cases af source.toNat target.toNat with ⟨af', hAdd⟩ | hAdd
            · obtain ⟨hTarget, hSource, -⟩ := AF.addAttack_spec hAdd
              rw [h.wellFormed.attackers_length, h.args] at hTarget
              rw [h.wellFormed.attacked_length, h.args] at hSource
              exact absurd ⟨hSource, hTarget⟩ hRange
            · rw [execute_fails (perform_attack_fails hAdd)]
              exact iff_of_false (fun hEq => by cases hEq) fun hOrderly =>
                hRange ⟨hOrderly.1, hOrderly.2.1⟩

end Execution

/-- Exactly when a file is read safely. The numbers in question are those that the
extractions leave behind, so that the memory may matter. -/
theorem parsesSafely_iff (locals : Locals) (text : List Char) :
    ParsesSafely locals text ↔ Orderly 0 (actions locals (fileLines text)) := by
  rw [ParsesSafely, parseI23_eq]
  exact clean_empty.safe_iff _

/-- The attack `0 1` is written far outside of the vectors, as one is subtracted
from zero. -/
theorem not_parsesSafely_zero : ¬ ParsesSafely ⟨0, 0, 0⟩ "p af 1\n0 1".toList := by
  intro hSafe
  have hFault : parseI23 ⟨0, 0, 0⟩ .empty (some "p af 1\n0 1".toList) =
      .error .outOfRange := by decide
  rw [ParsesSafely, hFault] at hSafe
  cases hSafe

end SerialisationSolver
