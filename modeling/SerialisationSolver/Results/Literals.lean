import SerialisationSolver.Correctness.Encoding
import SerialisationSolver.Correctness.Framework

/-! The numbers of the variables. They are computed as `uint32_t` and returned as
`int32_t`, which is safe for less than `2 ^ 30` arguments only. -/
namespace SerialisationSolver

open Satisfiability

/-- The literals that are passed for a set of active arguments: those of the
encoding, and those of the minimisation clauses and assumptions. -/
def passedLiterals (af : AF) (active : IterableBitSet) : List Int :=
  (encoding af active).flatten ++ active.array.map fun arg => -af.acceptedVar arg

/-- A variable with its own sign, or negated with the other one. For a variable that
has wrapped around the signs are the other way. -/
def SignedRight (af : AF) (lit : Int) : Prop :=
  ∃ arg < af.args, (0 < lit ∧ (lit = af.acceptedVar arg ∨ lit = af.rejectedVar arg)) ∨
    (lit < 0 ∧ (lit = -af.acceptedVar arg ∨ lit = -af.rejectedVar arg))

/-- Every variable is positive and can be negated, no two variables have the same
number, and so every literal that is passed has its sign. -/
structure SafeNumbering (af : AF) : Prop where
  accepted_range : ∀ a < af.args, 0 < af.acceptedVar a ∧ af.acceptedVar a < 2 ^ 31
  rejected_range : ∀ a < af.args, 0 < af.rejectedVar a ∧ af.rejectedVar a < 2 ^ 31
  accepted_injective : ∀ a < af.args, ∀ b < af.args, af.acceptedVar a = af.acceptedVar b → a = b
  rejected_injective : ∀ a < af.args, ∀ b < af.args, af.rejectedVar a = af.rejectedVar b → a = b
  distinct : ∀ a < af.args, ∀ b < af.args, af.acceptedVar a ≠ af.rejectedVar b
  passed : ∀ active : IterableBitSet, active.Valid af →
    ∀ lit ∈ passedLiterals af active, SignedRight af lit

section Numbering

variable {af : AF}

/-- One of the four literals of an argument: each of its two variables, as it is or
negated. -/
def LiteralOf (af : AF) (arg : Nat) (lit : Int) : Prop :=
  lit = af.acceptedVar arg ∨ lit = af.rejectedVar arg ∨ lit = -af.acceptedVar arg ∨
    lit = -af.rejectedVar arg

theorem toInt32_two_pow : toInt32 (2 ^ 31) = -2 ^ 31 := by rfl

theorem acceptedVar_of_lt {a : Nat} (h : a + 1 < 2 ^ 31) :
    af.acceptedVar a = ((a + 1 : Nat) : Int) :=
  toInt32_of_lt h

theorem rejectedVar_of_lt {a : Nat} (h : af.args + a + 1 < 2 ^ 31) :
    af.rejectedVar a = ((af.args + a + 1 : Nat) : Int) := toInt32_of_lt h

theorem mem_argumentClauses {active : IterableBitSet} {a : Nat} {clause : Clause} :
    clause ∈ argumentClauses af active a ↔ clause = [-af.acceptedVar a, -af.rejectedVar a] ∨
      (∃ b ∈ seenAttackers af active a, clause = [-af.acceptedVar a, af.rejectedVar b]) ∨
      clause = (seenAttackers af active a).map af.acceptedVar ++ [-af.rejectedVar a] := by
  simp only [argumentClauses, attackerClauses, List.cons_append, List.mem_cons, List.mem_append,
    List.mem_map, List.not_mem_nil, or_false, @eq_comm _ clause]

/-- Every literal in the clauses of an argument belongs to the argument or to an
attacker. -/
theorem literalOf_of_mem_argumentClauses {active : IterableBitSet} {a : Nat} {clause : Clause}
    (hClause : clause ∈ argumentClauses af active a) {lit : Int} (hLit : lit ∈ clause) :
    ∃ arg, (arg = a ∨ af.Attacks arg a) ∧ LiteralOf af arg lit := by
  rcases mem_argumentClauses.mp hClause with rfl | ⟨b, hb, rfl⟩ | rfl
  · cases List.mem_pair.mp hLit with
    | inl hAccepted => exact ⟨a, Or.inl rfl, Or.inr (Or.inr (Or.inl hAccepted))⟩
    | inr hRejected => exact ⟨a, Or.inl rfl, Or.inr (Or.inr (Or.inr hRejected))⟩
  · cases List.mem_pair.mp hLit with
    | inl hAccepted => exact ⟨a, Or.inl rfl, Or.inr (Or.inr (Or.inl hAccepted))⟩
    | inr hRejected => exact ⟨b, Or.inr (mem_seenAttackers.mp hb).1, Or.inr (Or.inl hRejected)⟩
  · cases List.mem_append.mp hLit with
    | inl hAttacker =>
        obtain ⟨b, hb, hAccepted⟩ := List.mem_map.mp hAttacker
        exact ⟨b, Or.inr (mem_seenAttackers.mp hb).1, Or.inl hAccepted.symm⟩
    | inr hOwn =>
        exact ⟨a, Or.inl rfl, Or.inr (Or.inr (Or.inr (List.mem_singleton.mp hOwn)))⟩

/-- Every literal that is passed belongs to an argument of the framework, be it
active or not. -/
theorem literalOf_of_mem_passedLiterals (h : af.WellFormed) {active : IterableBitSet}
    (hActive : active.Valid af) {lit : Int} (hLit : lit ∈ passedLiterals af active) :
    ∃ arg < af.args, LiteralOf af arg lit := by
  cases List.mem_append.mp hLit with
  | inl hEncoding =>
      obtain ⟨clause, hClause, hLit⟩ := List.mem_flatten.mp hEncoding
      cases List.mem_append.mp hClause with
      | inl hArguments =>
          obtain ⟨a, ha, hClause⟩ := List.mem_flatMap.mp hArguments
          obtain ⟨arg, hArg, hLiteral⟩ := literalOf_of_mem_argumentClauses hClause hLit
          cases hArg with
          | inl hOwn => exact ⟨arg, hOwn ▸ hActive.lt_args a ha, hLiteral⟩
          | inr hAttack => exact ⟨arg, (h.attacks_lt hAttack).1, hLiteral⟩
      | inr hNonempty =>
          rw [List.mem_singleton.mp hNonempty] at hLit
          obtain ⟨a, ha, hAccepted⟩ := List.mem_map.mp hLit
          exact ⟨a, hActive.lt_args a ha, Or.inl hAccepted.symm⟩
  | inr hMinimization =>
      obtain ⟨a, ha, hAccepted⟩ := List.mem_map.mp hMinimization
      exact ⟨a, hActive.lt_args a ha, Or.inr (Or.inr (Or.inl hAccepted.symm))⟩

/-- Below `2 ^ 30` arguments every number fits and the sums are what they look like. -/
theorem safeNumbering_of_lt (h : af.WellFormed) (hSmall : 2 * af.args < 2 ^ 31) :
    SafeNumbering af := by
  have hAccepted : ∀ a < af.args, af.acceptedVar a = ((a + 1 : Nat) : Int) :=
    fun a ha => acceptedVar_of_lt (by omega)
  have hRejected : ∀ a < af.args, af.rejectedVar a = ((af.args + a + 1 : Nat) : Int) :=
    fun a ha => rejectedVar_of_lt (by omega)
  constructor
  · intro a ha
    rw [hAccepted a ha]
    omega
  · intro a ha
    rw [hRejected a ha]
    omega
  · intro a ha b hb hEq
    rw [hAccepted a ha, hAccepted b hb] at hEq
    omega
  · intro a ha b hb hEq
    rw [hRejected a ha, hRejected b hb] at hEq
    omega
  · intro a ha b hb hEq
    rw [hAccepted a ha, hRejected b hb] at hEq
    omega
  · intro active hActive lit hLit
    obtain ⟨a, ha, hLiteral⟩ := literalOf_of_mem_passedLiterals h hActive hLit
    refine ⟨a, ha, ?_⟩
    rw [LiteralOf, hAccepted a ha, hRejected a ha] at hLiteral
    rw [hAccepted a ha, hRejected a ha]
    omega

/-- From `2 ^ 30` arguments on some variable is `2 ^ 31`, which is negative as an
`int32_t`. -/
theorem not_safeNumbering (hLarge : ¬ 2 * af.args < 2 ^ 31) : ¬ SafeNumbering af := by
  intro hSafe
  by_cases hArgs : af.args < 2 ^ 31
  · have hVar : af.rejectedVar (2 ^ 31 - 1 - af.args) = -2 ^ 31 := by
      rw [AF.rejectedVar, show af.args + (2 ^ 31 - 1 - af.args) + 1 = 2 ^ 31 by omega]
      exact toInt32_two_pow
    have hPos := (hSafe.rejected_range (2 ^ 31 - 1 - af.args) (by omega)).1
    rw [hVar] at hPos
    omega
  · have hVar : af.acceptedVar (2 ^ 31 - 1) = -2 ^ 31 := toInt32_two_pow
    have hPos := (hSafe.accepted_range (2 ^ 31 - 1) (by omega)).1
    rw [hVar] at hPos
    omega

/-- Exactly when the numbering is safe. The attacks play no part in it. -/
theorem safeNumbering_iff (h : af.WellFormed) : SafeNumbering af ↔ 2 * af.args < 2 ^ 31 := by
  constructor
  · intro hSafe
    by_contra hLarge
    exact not_safeNumbering hLarge hSafe
  · exact safeNumbering_of_lt h

end Numbering

theorem safeNumbering_three : SafeNumbering (AF.empty.setArguments 3) :=
  (safeNumbering_iff (AF.setArguments_wellFormed (show 3 < 2 ^ 32 by decide))).mpr (by decide)

/-- With `2 ^ 30` arguments the last rejected variable is negative. -/
theorem not_safeNumbering_large : ¬ SafeNumbering (AF.empty.setArguments (2 ^ 30)) := by
  apply not_safeNumbering
  have hArgs : (AF.empty.setArguments (2 ^ 30)).args = 2 ^ 30 := rfl
  omega

end SerialisationSolver
