import SerialisationSolver.Correctness.ModelSearch

/-! Variables beyond the range of `int` wrap around to negative literals. Such a
literal still works as long as its variable is not shared, or as long as the
sets that are looked for agree with both uses of a shared variable. -/
namespace SerialisationSolver

open Satisfiability Argumentation

/-- The encoding forces the argument to be rejected once `S` is accepted, because it
attacks a member. -/
def MustReject (af : AF) (S : Set Nat) (a : Nat) : Prop := ∃ s ∈ S, af.Attacks a s

/-- The encoding forbids that the argument is rejected once `S` is accepted, because
it is a member or no member attacks it. -/
def MustKeep (af : AF) (S : Set Nat) (a : Nat) : Prop := a ∈ S ∨ ∀ s ∈ S, ¬ af.Attacks s a

/-- The rejected variable of an active argument wraps around to a variable of
another active argument, and `S` needs both with the wrong polarities. -/
def Clash (af : AF) (active : IterableBitSet) (S : Set Nat) : Prop :=
  ∃ a ∈ active.array, 2 ^ 31 < af.args + a + 1 ∧
    ((∃ b ∈ active.array, af.args + a + 1 + (b + 1) = 2 ^ 32 ∧
        (MustReject af S a ∧ b ∈ S ∨ MustKeep af S a ∧ b ∉ S)) ∨
      ∃ c ∈ active.array, af.args + a + 1 + (af.args + c + 1) = 2 ^ 32 ∧
        (MustReject af S a ∧ MustReject af S c ∨ MustKeep af S a ∧ MustKeep af S c))

instance (af : AF) (set : List Nat) (a : Nat) : Decidable (MustReject af (setOf set) a) :=
  inferInstanceAs (Decidable (∃ s ∈ set, af.Attacks a s))

instance (af : AF) (set : List Nat) (a : Nat) : Decidable (MustKeep af (setOf set) a) :=
  inferInstanceAs (Decidable (a ∈ set ∨ ∀ s ∈ set, ¬ af.Attacks s a))

/-- Beyond the range of `int` a sum becomes the negative number with the same bits. -/
theorem toInt32_of_gt {n : Nat} (hLow : 2 ^ 31 < n) (hHigh : n < 2 ^ 32) :
    toInt32 n = -((2 ^ 32 - n : Nat) : Int) := by
  unfold toInt32
  rw [Int.bmod_def]
  split <;> omega

/-- The only rejected variable without a literal is `2 ^ 31`; all others are numbers
that have a negation. -/
theorem validLit_rejectedVar {af : AF} {x : Nat} (hArgs : af.args < 2 ^ 31) (hLess : x < af.args)
    (hNe : af.args + x + 1 ≠ 2 ^ 31) : Cadical.Solver.ValidLit (af.rejectedVar x) := by
  cases lt_or_gt_of_ne hNe with
  | inl hLow =>
      rw [AF.rejectedVar, toInt32_of_lt hLow]
      simp only [Cadical.Solver.ValidLit]
      omega
  | inr hHigh =>
      rw [AF.rejectedVar, toInt32_of_gt hHigh (by omega)]
      simp only [Cadical.Solver.ValidLit]
      omega

section Wrapped

variable {af : AF} {active : IterableBitSet} (hActive : active.Valid af) (hArgs : af.args < 2 ^ 31)
include hActive hArgs

theorem literalsValid_of_ne (hExact : active.Exact)
    (hNe : ∀ a ∈ active.array, af.args + a + 1 ≠ 2 ^ 31) : LiteralsValid af active := by
  intro x hx
  have hMem := (hExact x).mp hx
  have hLess := hActive.lt_args x hMem
  exact ⟨by omega, validLit_rejectedVar hArgs hLess (hNe x hMem)⟩

omit hActive hArgs in
theorem rejects_of_lt (vals : Valuation) {a : Nat} (hLow : af.args + a + 1 < 2 ^ 31) :
    rejects af vals a = vals (af.args + a + 1) := by
  rw [rejects, AF.rejectedVar, toInt32_of_lt hLow, litHolds_of_pos (by omega), Int.natAbs_natCast]

/-- A variable that wraps around is read with the opposite polarity, at the variable
that its absolute value names. -/
theorem rejects_of_gt (vals : Valuation) {a : Nat} (ha : a ∈ active.array)
    (hHigh : 2 ^ 31 < af.args + a + 1) : rejects af vals a =
      !vals (2 ^ 32 - (af.args + a + 1)) := by
  have hLess := hActive.lt_args a ha
  rw [rejects, AF.rejectedVar, toInt32_of_gt hHigh (by omega), litHolds_neg (by omega),
    litHolds_of_pos (by omega), Int.natAbs_natCast]

end Wrapped

section Forced

variable {af : AF} {active : IterableBitSet} (hActive : active.Valid af) (hExact : active.Exact)
  (hValid : LiteralsValid af active)
include hActive hExact hValid

/-- The clauses for the active arguments say no more than what must be rejected and
what must be kept. Arguments that are neither may be rejected or not. -/
theorem argumentClauses_hold_iff (vals : Valuation) :
    (∀ a ∈ active.array, ∀ clause ∈ argumentClauses af active a, clauseHolds vals clause = true) ↔
      ∀ a ∈ active.array, (MustReject af (setOf (acceptedBy active vals)) a →
        rejects af vals a = true) ∧
        (MustKeep af (setOf (acceptedBy active vals)) a → rejects af vals a = false) := by
  have hEach := fun a ha => argumentClauses_hold hActive hValid (a := a) ha vals
  constructor
  · intro h a ha
    refine ⟨?_, ?_⟩
    · intro hReject
      obtain ⟨s, hs, has⟩ := hReject
      obtain ⟨hsActive, hsTrue⟩ := mem_acceptedBy.mp hs
      exact ((hEach s hsActive).mp (h s hsActive)).2.1 a has (hActive.covers a ha) hsTrue
    · rintro (hIn | hFree)
      · exact ((hEach a ha).mp (h a ha)).1 (mem_acceptedBy.mp hIn).2
      · by_contra hOut
        obtain ⟨b, hba, hTest, hTrue⟩ := ((hEach a ha).mp (h a ha)).2.2 (by simpa using hOut)
        exact hFree b (mem_acceptedBy.mpr ⟨(hExact b).mp hTest, hTrue⟩) hba
  · intro h a ha
    refine (hEach a ha).mpr ⟨?_, ?_, ?_⟩
    · exact fun hTrue => (h a ha).2 (Or.inl (mem_acceptedBy.mpr ⟨ha, hTrue⟩))
    · intro b hba hTest hTrue
      exact (h b ((hExact b).mp hTest)).1 ⟨a, mem_acceptedBy.mpr ⟨ha, hTrue⟩, hba⟩
    · intro hOut
      by_contra hNone
      have hKept : MustKeep af (setOf (acceptedBy active vals)) a := by
        refine Or.inr fun s hs hsa => hNone ⟨s, hsa, ?_, (mem_acceptedBy.mp hs).2⟩
        exact hActive.covers s (mem_acceptedBy.mp hs).1
      simp [(h a ha).2 hKept] at hOut

/-- A model that accepts `S` sets every shared variable one way only, so that `S`
cannot need both. -/
theorem Wanted.not_clash (hArgs : af.args < 2 ^ 31) {S : Set Nat}
    (h : ModelSearch.Wanted af active S) :
    ¬ Clash af active S := by
  obtain ⟨vals, hEncoding, rfl⟩ := h
  rw [encoding, List.forall_mem_append, List.forall_mem_flatMap] at hEncoding
  have hForced := (argumentClauses_hold_iff hActive hExact hValid vals).mp hEncoding.1
  intro hClash
  obtain ⟨a, ha, hHigh, hShared⟩ := hClash
  have hWrapped := rejects_of_gt hActive hArgs vals ha hHigh
  rcases hShared with ⟨b, hb, hSum, hBad⟩ | ⟨c, hc, hSum, hBad⟩
  · rw [show 2 ^ 32 - (af.args + a + 1) = b + 1 by omega] at hWrapped
    have hMem : b ∈ setOf (acceptedBy active vals) ↔ vals (b + 1) = true := by simp [hb]
    rcases hBad with ⟨hReject, hIn⟩ | ⟨hKeep, hNot⟩
    · simp [(hForced a ha).1 hReject, hMem.mp hIn] at hWrapped
    · rw [hMem] at hNot
      simp [(hForced a ha).2 hKeep, hNot] at hWrapped
  · rw [show 2 ^ 32 - (af.args + a + 1) = af.args + c + 1 by omega,
      ← rejects_of_lt vals (by omega)] at hWrapped
    rcases hBad with ⟨hReject, hReject'⟩ | ⟨hKeep, hKeep'⟩
    · simp [(hForced a ha).1 hReject, (hForced c hc).1 hReject'] at hWrapped
    · simp [(hForced a ha).2 hKeep, (hForced c hc).2 hKeep'] at hWrapped

end Forced

/-- A valuation that accepts the given set and, where variables are shared, rejects
what the set needs to have rejected. -/
def sharingValuation (af : AF) (active : IterableBitSet) (set : List Nat) : Valuation := fun var =>
  if var ≤ af.args ∧ var - 1 ∈ active.array then decide (var - 1 ∈ set)
  else if af.args < var ∧ var - af.args - 1 ∈ active.array then
    decide (MustReject af (setOf set) (var - af.args - 1) ∨
      ¬ MustKeep af (setOf set) (var - af.args - 1) ∧
        ∃ a ∈ active.array, af.args + a + 1 + var = 2 ^ 32 ∧ MustKeep af (setOf set) a)
  else decide (¬ ∃ a ∈ active.array, af.args + a + 1 + var = 2 ^ 32 ∧ MustReject af (setOf set) a)

section Sharing

variable {af : AF} {active : IterableBitSet}

theorem sharingValuation_accepted (set : List Nat) {b : Nat} (hb : b ∈ active.array)
    (hLess : b < af.args) :
    sharingValuation af active set (b + 1) = true ↔ b ∈ set := by
  have hLow : b + 1 ≤ af.args := hLess
  simp [sharingValuation, hLow, hb]

theorem sharingValuation_rejected (af : AF) (set : List Nat) {c : Nat} (hc : c ∈ active.array) :
    sharingValuation af active set (af.args + c + 1) = true ↔ MustReject af (setOf set) c ∨
      ¬ MustKeep af (setOf set) c ∧ ∃ a ∈ active.array,
        af.args + a + 1 + (af.args + c + 1) = 2 ^ 32 ∧ MustKeep af (setOf set) a := by
  have hLow : ¬ af.args + c + 1 ≤ af.args := by omega
  have hHigh : af.args < af.args + c + 1 := by omega
  have hArg : af.args + c + 1 - af.args - 1 = c := by omega
  simp only [sharingValuation, hLow, false_and, if_false, hHigh, hArg, hc, and_self, if_true,
    decide_eq_true_eq]

/-- A variable that wraps around to one that no argument uses can be set as the set
needs it. -/
theorem sharingValuation_unshared (set : List Nat) {a : Nat} (ha : a ∈ active.array)
    (hLess : af.args + a + 1 < 2 ^ 32)
    (hAccepted : ∀ b ∈ active.array, af.args + a + 1 + (b + 1) ≠ 2 ^ 32)
    (hRejected : ∀ c ∈ active.array, af.args + a + 1 + (af.args + c + 1) ≠ 2 ^ 32) :
    sharingValuation af active set (2 ^ 32 - (af.args + a + 1)) = true ↔
      ¬ MustReject af (setOf set) a := by
  have hNotLow : ¬ (2 ^ 32 - (af.args + a + 1) ≤ af.args ∧
      2 ^ 32 - (af.args + a + 1) - 1 ∈ active.array) := by
    intro hShared
    obtain ⟨hLow, hMem⟩ := hShared
    exact hAccepted _ hMem (by omega)
  have hNotHigh : ¬ (af.args < 2 ^ 32 - (af.args + a + 1) ∧
      2 ^ 32 - (af.args + a + 1) - af.args - 1 ∈ active.array) := by
    intro hShared
    obtain ⟨hHigh, hMem⟩ := hShared
    exact hRejected _ hMem (by omega)
  have hPartner : (∃ a' ∈ active.array, af.args + a' + 1 + (2 ^ 32 - (af.args + a + 1)) = 2 ^ 32 ∧
      MustReject af (setOf set) a') ↔ MustReject af (setOf set) a := by
    constructor
    · intro hPartner
      obtain ⟨a', ha', hSum, hReject⟩ := hPartner
      obtain rfl : a' = a := by omega
      exact hReject
    · exact fun hReject => ⟨a, ha, by omega, hReject⟩
  simp only [sharingValuation, hNotLow, hNotHigh, if_false, hPartner, decide_eq_true_eq]

end Sharing

section Accepted

variable {af : AF} {active : IterableBitSet} (hActive : active.Valid af) (hArgs : af.args < 2 ^ 31)
  (hNe : ∀ a ∈ active.array, af.args + a + 1 ≠ 2 ^ 31) {set : List Nat}
  (hAdm : Admissible af.Attacks active.actives (setOf set))
include hAdm

/-- What attacks an admissible set is attacked by it and is no member, so that
nothing has to be both. -/
theorem not_mustKeep_of_mustReject {a : Nat} (ha : a ∈ active.array)
    (hReject : MustReject af (setOf set) a) : ¬ MustKeep af (setOf set) a := by
  obtain ⟨s, hs, has⟩ := hReject
  obtain ⟨c, hc, hca⟩ := hAdm.defended s hs a ha has
  rintro (hIn | hFree)
  · exact hAdm.conflictFree a hIn s hs has
  · exact hFree c hc hca

include hActive hArgs hNe

/-- Without a clash the valuation rejects as the set needs it. The cases are whose
variable, if any, the wrapped one coincides with. -/
theorem sharingValuation_forced (hClash : ¬ Clash af active (setOf set)) {a : Nat}
    (ha : a ∈ active.array) :
    (MustReject af (setOf set) a → rejects af (sharingValuation af active set) a = true) ∧
      (MustKeep af (setOf set) a → rejects af (sharingValuation af active set) a = false) := by
  have hApart : MustReject af (setOf set) a → ¬ MustKeep af (setOf set) a :=
    not_mustKeep_of_mustReject hAdm ha
  have hLess := hActive.lt_args a ha
  rcases lt_or_gt_of_ne (hNe a ha) with hLow | hHigh
  · rw [rejects_of_lt _ hLow, Bool.eq_false_iff, ne_eq, sharingValuation_rejected af set ha]
    grind
  · rw [rejects_of_gt hActive hArgs _ ha hHigh]
    by_cases hAccepted : ∃ b ∈ active.array, af.args + a + 1 + (b + 1) = 2 ^ 32
    · obtain ⟨b, hb, hSum⟩ := hAccepted
      rw [show 2 ^ 32 - (af.args + a + 1) = b + 1 by omega]
      have hRead := sharingValuation_accepted set hb (hActive.lt_args b hb)
      have hNoClash : ¬ (MustReject af (setOf set) a ∧ b ∈ setOf set ∨
          MustKeep af (setOf set) a ∧ b ∉ setOf set) :=
        fun hBad => hClash ⟨a, ha, hHigh, Or.inl ⟨b, hb, hSum, hBad⟩⟩
      rw [mem_setOf] at hNoClash
      rw [Bool.not_eq_true', Bool.not_eq_false', Bool.eq_false_iff, ne_eq, hRead]
      grind
    · by_cases hRejected : ∃ c ∈ active.array, af.args + a + 1 + (af.args + c + 1) = 2 ^ 32
      · obtain ⟨c, hc, hSum⟩ := hRejected
        rw [show 2 ^ 32 - (af.args + a + 1) = af.args + c + 1 by omega]
        have hPartner : (∃ a' ∈ active.array, af.args + a' + 1 + (af.args + c + 1) = 2 ^ 32 ∧
            MustKeep af (setOf set) a') ↔ MustKeep af (setOf set) a := by
          constructor
          · intro hPartner
            obtain ⟨a', ha', hSum', hKeep⟩ := hPartner
            obtain rfl : a' = a := by omega
            exact hKeep
          · exact fun hKeep => ⟨a, ha, hSum, hKeep⟩
        have hRead := sharingValuation_rejected af set hc
        have hNoClash : ¬ (MustReject af (setOf set) a ∧ MustReject af (setOf set) c ∨
            MustKeep af (setOf set) a ∧ MustKeep af (setOf set) c) :=
          fun hBad => hClash ⟨a, ha, hHigh, Or.inr ⟨c, hc, hSum, hBad⟩⟩
        rw [Bool.not_eq_true', Bool.not_eq_false', Bool.eq_false_iff, ne_eq, hRead, hPartner]
        grind
      · push Not at hAccepted hRejected
        have hRead := sharingValuation_unshared set ha (by omega) hAccepted hRejected
        rw [Bool.not_eq_true', Bool.not_eq_false', Bool.eq_false_iff, ne_eq, hRead]
        grind

end Accepted

/-- Which admissible sets are accepted when variables may wrap around: all but those
with a clash. The bits have to be exact for this, and no variable may be `2 ^ 31`. -/
theorem wanted_iff_not_clash {af : AF} {active : IterableBitSet} (hActive : active.Valid af)
    (hExact : active.Exact) (hArgs : af.args < 2 ^ 31)
    (hNe : ∀ a ∈ active.array, af.args + a + 1 ≠ 2 ^ 31) {S : Set Nat} (hNonempty : S.Nonempty)
    (hAdm : Admissible af.Attacks active.actives S) :
    ModelSearch.Wanted af active S ↔ ¬ Clash af active S := by
  classical
  have hValid := literalsValid_of_ne hActive hArgs hExact hNe
  refine ⟨fun h => Wanted.not_clash hActive hExact hValid hArgs h, fun hClash => ?_⟩
  obtain ⟨set, hSet, rfl⟩ : ∃ set : List Nat, (∀ a ∈ set, a ∈ active.array) ∧ setOf set = S := by
    refine ⟨active.array.filter (· ∈ S), fun a ha => List.mem_of_mem_filter ha, ?_⟩
    ext a
    have hActives : a ∈ S → a ∈ active.array := fun ha => hAdm.subset ha
    simpa using hActives
  have hSame : setOf (acceptedBy active (sharingValuation af active set)) = setOf set := by
    ext a
    rw [mem_setOf, mem_setOf, mem_acceptedBy]
    constructor
    · intro hAccepted
      obtain ⟨ha, hTrue⟩ := hAccepted
      exact (sharingValuation_accepted set ha (hActive.lt_args a ha)).mp hTrue
    · intro ha
      have haActive := hSet a ha
      exact ⟨haActive, (sharingValuation_accepted set haActive (hActive.lt_args a haActive)).mpr ha⟩
  refine ⟨sharingValuation af active set, ?_, hSame⟩
  rw [encoding, List.forall_mem_append, List.forall_mem_flatMap]
  refine ⟨(argumentClauses_hold_iff hActive hExact hValid _).mpr fun a ha => ?_, ?_⟩
  · rw [hSame]
    exact sharingValuation_forced hActive hArgs hNe hAdm hClash ha
  · intro clause hClause
    rw [List.mem_singleton.mp hClause, nonEmptyClause_holds hActive hValid, hSame]
    exact hNonempty

end SerialisationSolver
