import SerialisationSolver.Correctness.SolverInterface
import SerialisationSolver.Correctness.Reduct
import SerialisationSolver.Model.InitialSets

/-! The clauses of `admissible_nonempty` and what their models accept. As long
as no literal leaves the range of `int`, a set of active arguments is accepted
by some model exactly if it is non-empty and admissible with the stale
arguments as helpers. -/
namespace SerialisationSolver

open Interaction Satisfiability Argumentation

theorem toInt32_of_lt {n : Nat} (h : n < 2 ^ 31) : toInt32 n = n := by
  unfold toInt32
  rw [Int.bmod_def]
  split <;> omega

/-- Every variable of an argument whose bit is set is an `int` that can be negated.
A rejected variable beyond the range of `int` may wrap around to a negative number
and still be of this kind. -/
def LiteralsValid (af : AF) (active : IterableBitSet) : Prop :=
  ∀ x, active.test x = true → x + 1 < 2 ^ 31 ∧ Cadical.Solver.ValidLit (af.rejectedVar x)

/-- No variable of an argument whose bit is set leaves the range of `int`. This is
more than valid literals, and rules out that two variables coincide. -/
def LiteralsFit (af : AF) (active : IterableBitSet) : Prop :=
  ∀ x, active.test x = true → af.args + x + 1 < 2 ^ 31

/-- What a valuation says about the variable that stands for rejection, also where
this variable has wrapped around. -/
def rejects (af : AF) (vals : Valuation) (x : Nat) : Bool := litHolds vals (af.rejectedVar x)

section Literals

variable {af : AF} {active : IterableBitSet} {x : Nat}

/-- While the literals fit, the rejected variable is the sum that the source means. -/
theorem LiteralsFit.rejectedVar (hFit : LiteralsFit af active) (hx : active.test x = true) :
    af.rejectedVar x = ((af.args + x + 1 : Nat) : Int) := toInt32_of_lt (hFit x hx)

theorem LiteralsFit.valid (hFit : LiteralsFit af active) : LiteralsValid af active := by
  intro x hx
  have hRange := hFit x hx
  refine ⟨by omega, ?_⟩
  rw [hFit.rejectedVar hx]
  simp only [Cadical.Solver.ValidLit]
  omega

theorem LiteralsFit.rejects (hFit : LiteralsFit af active) (hx : active.test x = true)
    (vals : Valuation) : rejects af vals x = vals (af.args + x + 1) := by
  rw [SerialisationSolver.rejects, hFit.rejectedVar hx, litHolds_of_pos (by omega),
    Int.natAbs_natCast]

variable (hValid : LiteralsValid af active) (hx : active.test x = true)
include hValid hx

theorem LiteralsValid.acceptedVar : af.acceptedVar x = ((x + 1 : Nat) : Int) :=
  toInt32_of_lt (hValid x hx).1

/-- The four literals that the encoding forms for an argument are accepted by the
solver. -/
theorem LiteralsValid.all : Cadical.Solver.ValidLit (af.acceptedVar x) ∧
    Cadical.Solver.ValidLit (-af.acceptedVar x) ∧ Cadical.Solver.ValidLit (af.rejectedVar x) ∧
      Cadical.Solver.ValidLit (-af.rejectedVar x) := by
  have hAccepted := (hValid x hx).1
  have hRejected := (hValid x hx).2
  rw [hValid.acceptedVar hx]
  simp only [Cadical.Solver.ValidLit] at hRejected ⊢
  omega

/-- The literals of an argument, evaluated. Accepted variables are positive, so that
a valuation can be read at the variable itself. -/
theorem LiteralsValid.holds_accepted (vals : Valuation) :
    litHolds vals (af.acceptedVar x) = vals (x + 1) := by
  rw [hValid.acceptedVar hx, litHolds_of_pos (by omega), Int.natAbs_natCast]

theorem LiteralsValid.holds_not_accepted (vals : Valuation) :
    litHolds vals (-af.acceptedVar x) = !vals (x + 1) := by
  rw [litHolds_neg (hValid.all hx).1.1, hValid.holds_accepted hx]

theorem LiteralsValid.holds_not_rejected (vals : Valuation) :
    litHolds vals (-af.rejectedVar x) = !rejects af vals x := litHolds_neg (hValid x hx).2.1 vals

end Literals

/-- The attackers that the encoding sees: those whose bit is set, be they active or
stale. -/
def seenAttackers (af : AF) (active : IterableBitSet) (arg : Nat) : List Nat :=
  (af.attackersOf arg).filter active.test

/-- The clauses of the inner loop: whoever is accepted has each of its attackers
rejected. -/
def attackerClauses (af : AF) (active : IterableBitSet) (arg : Nat) : List Clause :=
  (seenAttackers af active arg).map fun attacker => [-af.acceptedVar arg, af.rejectedVar attacker]

/-- The clauses for one argument, in the order in which they are added. The last one
says that whoever is rejected has an accepted attacker. -/
def argumentClauses (af : AF) (active : IterableBitSet) (arg : Nat) : List Clause :=
  [-af.acceptedVar arg, -af.rejectedVar arg] :: attackerClauses af active arg ++
    [(seenAttackers af active arg).map af.acceptedVar ++ [-af.rejectedVar arg]]

/-- All clauses that `admissible_nonempty` adds, argument by argument, and at last
the one that asks for an accepted argument. -/
def encoding (af : AF) (active : IterableBitSet) : List Clause :=
  active.array.flatMap (argumentClauses af active) ++ [active.array.map af.acceptedVar]

@[simp] theorem mem_seenAttackers {af : AF} {active : IterableBitSet} {a b : Nat} :
    b ∈ seenAttackers af active a ↔ af.Attacks b a ∧ active.test b = true := List.mem_filter

section Program

variable {af : AF} {active : IterableBitSet} {s : CadicalSatSolver}

/-- The loop over the attackers adds one clause for each attacker that is seen, and
collects their accepted variables for the next clause. -/
private theorem attackerLoop_foldl (arg : Nat) (attackers : List Nat) (outClause : Clause)
    (s : CadicalSatSolver) :
    attackers.foldl (fun (acc : CadicalSatSolver × Clause) attacker =>
        if active.test attacker then
          (acc.1.withClause [-af.acceptedVar arg, af.rejectedVar attacker],
            acc.2 ++ [af.acceptedVar attacker])
        else acc) (s, outClause) =
      (s.withClauses ((attackers.filter active.test).map fun attacker =>
          [-af.acceptedVar arg, af.rejectedVar attacker]),
        outClause ++ (attackers.filter active.test).map af.acceptedVar) := by
  induction attackers generalizing s outClause with
  | nil => simp
  | cons attacker attackers ih =>
      rw [List.foldl_cons]
      by_cases hTest : active.test attacker = true
      · rw [if_pos hTest, ih, List.filter_cons_of_pos hTest]
        simp
      · rw [if_neg hTest, ih, List.filter_cons_of_neg hTest]

/-- The loop over the active arguments adds their clauses one after the other, and
collects their accepted variables. -/
private theorem argumentLoop_foldl (args : List Nat) (nonEmptyClause : Clause)
    (s : CadicalSatSolver) :
    args.foldl (fun (acc : CadicalSatSolver × Clause) arg =>
        (acc.1.withClauses (argumentClauses af active arg), acc.2 ++ [af.acceptedVar arg]))
        (s, nonEmptyClause) =
      (s.withClauses (args.flatMap (argumentClauses af active)),
        nonEmptyClause ++ args.map af.acceptedVar) := by
  induction args generalizing s nonEmptyClause with
  | nil => simp
  | cons arg args ih => simp [ih, List.flatMap_cons, CadicalSatSolver.withClauses_append]

/-- As long as the literals are valid the inner loop asks and fails at nothing, so
that it is the fold. -/
private theorem attackerLoop_eq (hValid : LiteralsValid af active) (hReady : s.Ready) {arg : Nat}
    (hArg : active.test arg = true) :
    (forIn (af.attackersOf arg) (s, ([] : Clause)) fun attacker acc =>
      if active.test attacker = true then do
        let solver ← acc.1.addClause2 (-af.acceptedVar arg) (af.rejectedVar attacker)
        pure (ForInStep.yield (solver, acc.2 ++ [af.acceptedVar attacker]))
      else pure (ForInStep.yield (acc.1, acc.2))) =
    pure (s.withClauses (attackerClauses af active arg),
      (seenAttackers af active arg).map af.acceptedVar) := by
  rw [Program.forIn_eq_foldl _ (fun acc => acc.1.Ready) hReady, attackerLoop_foldl arg]
  · rfl
  · intro attacker _ acc hAcc
    by_cases hTest : active.test attacker = true
    · rw [if_pos hTest, if_pos hTest, CadicalSatSolver.addClause2_eq_addClause,
        CadicalSatSolver.addClause_eq hAcc, pure_bind]
      · exact ⟨rfl, hAcc.withClause _⟩
      · simp [(hValid.all hArg).2.1, (hValid.all hTest).2.2.1]
    · rw [if_neg hTest, if_neg hTest]
      exact ⟨rfl, hAcc⟩

private theorem attackerLoop_immediate (af : AF) (active : IterableBitSet) (arg : Nat)
    (init : CadicalSatSolver × Clause) :
    (forIn (af.attackersOf arg) init fun attacker acc =>
      if active.test attacker = true then do
        let solver ← acc.1.addClause2 (-af.acceptedVar arg) (af.rejectedVar attacker)
        pure (ForInStep.yield (solver, acc.2 ++ [af.acceptedVar attacker]))
      else pure (ForInStep.yield (acc.1, acc.2))).Immediate := by
  apply Program.Immediate.forIn
  intro attacker acc
  split_ifs
  · rw [CadicalSatSolver.addClause2_eq_addClause]
    exact (acc.1.addClause_immediate _).bind fun _ => Or.inl ⟨_, rfl⟩
  · exact Or.inl ⟨_, rfl⟩

/-- As long as the literals are valid, `admissible_nonempty` adds exactly
`encoding`, whatever clauses are there before. -/
theorem admissibleNonempty_eq (hActive : active.Valid af) (hValid : LiteralsValid af active)
    (hReady : s.Ready) :
    admissibleNonempty af active s = pure (s.withClauses (encoding af active)) := by
  unfold admissibleNonempty
  dsimp only
  rw [Program.forIn_eq_foldl _ (fun acc => acc.1.Ready) hReady, argumentLoop_foldl]
  · simp only [pure_bind, List.nil_append]
    rw [CadicalSatSolver.addClause_eq (hReady.withClauses _), encoding,
      CadicalSatSolver.withClauses_append]
    · rfl
    · intro lit hLit
      obtain ⟨arg, hArg, rfl⟩ := List.mem_map.mp hLit
      exact (hValid.all (hActive.covers arg hArg)).1
  · intro arg hArg acc hAcc
    have hTest := hActive.covers arg hArg
    have hAll := hValid.all hTest
    have hOut : ∀ lit ∈ (seenAttackers af active arg).map af.acceptedVar ++ [-af.rejectedVar arg],
        Cadical.Solver.ValidLit lit := by
      intro lit hLit
      rcases List.mem_append.mp hLit with hLit | hLit
      · obtain ⟨attacker, hAttacker, rfl⟩ := List.mem_map.mp hLit
        exact (hValid.all (mem_seenAttackers.mp hAttacker).2).1
      · rw [List.mem_singleton.mp hLit]
        exact hAll.2.2.2
    have hFirst : (acc.1.withClause [-af.acceptedVar arg, -af.rejectedVar arg]).Ready :=
      hAcc.withClause _
    refine ⟨?_, hAcc.withClauses _⟩
    rw [CadicalSatSolver.addClause2_eq_addClause,
      CadicalSatSolver.addClause_eq hAcc (by simp [hAll]),
      pure_bind, attackerLoop_eq hValid hFirst hTest, pure_bind,
      CadicalSatSolver.addClause_eq (hFirst.withClauses _) hOut, pure_bind, argumentClauses,
      CadicalSatSolver.withClauses_append]
    rfl

/-- A rejected variable that would be `2 ^ 31` has no literal: it is the smallest
`int`, which the solver refuses and which has no negation. -/
private theorem addClause2_rejected_fails {a x : Nat} (ha : a < af.args)
    (hVar : af.args + x + 1 = 2 ^ 31) :
    s.addClause2 (-af.acceptedVar a) (af.rejectedVar x) = .fail .invalidLiteral ∧
      s.addClause2 (-af.acceptedVar a) (-af.rejectedVar x) = .fail .invalidLiteral := by
  have hAccepted : af.acceptedVar a = ((a + 1 : Nat) : Int) := toInt32_of_lt (by omega)
  have hRejected : af.rejectedVar x = -2 ^ 31 := by rw [AF.rejectedVar, hVar]; rfl
  have hFirst : Cadical.Solver.ValidLit (-af.acceptedVar a) := by
    rw [hAccepted]
    simp only [Cadical.Solver.ValidLit]
    omega
  constructor
  · apply CadicalSatSolver.addClause2_fails s hFirst
    · rw [hRejected]
      decide
    · rw [hRejected]
      decide
  · apply CadicalSatSolver.addClause2_fails s hFirst
    · rw [hRejected]
      decide
    · rw [hRejected]
      decide

/-- The inner loop fails at an attacker with this variable, wherever it stands among
the attackers. -/
private theorem attackerLoop_fails {a x : Nat} (ha : a < af.args)
    (hx : x ∈ seenAttackers af active a)
    (hVar : af.args + x + 1 = 2 ^ 31) (init : CadicalSatSolver × Clause) :
    ∃ fault, (forIn (af.attackersOf a) init fun attacker acc =>
      if active.test attacker = true then do
        let solver ← acc.1.addClause2 (-af.acceptedVar a) (af.rejectedVar attacker)
        pure (ForInStep.yield (solver, acc.2 ++ [af.acceptedVar attacker]))
      else pure (ForInStep.yield (acc.1, acc.2))) = .fail fault := by
  obtain ⟨hAttacker, hTest⟩ := mem_seenAttackers.mp hx
  refine Program.forIn_eq_fail ?_ hAttacker ?_
  · intro attacker acc
    split_ifs
    · rw [CadicalSatSolver.addClause2_eq_addClause]
      rcases acc.1.addClause_immediate [-af.acceptedVar a, af.rejectedVar attacker] with
        ⟨solver, hAdd⟩ | ⟨fault, hAdd⟩
      · exact Or.inl ⟨(solver, acc.2 ++ [af.acceptedVar attacker]), by rw [hAdd, pure_bind]⟩
      · exact Or.inr ⟨fault, by rw [hAdd, Program.fail_bind]⟩
    · exact Or.inl ⟨_, rfl⟩
  · intro acc
    rw [if_pos hTest, (addClause2_rejected_fails ha hVar).1]
    exact ⟨_, rfl⟩

/-- A rejected variable that would be `2 ^ 31` is used for an active argument or for
an attacker that is seen, and the clauses of that argument are never completed. -/
theorem admissibleNonempty_fails {a x : Nat} (ha : a ∈ active.array) (hLess : a < af.args)
    (hx : x = a ∨ x ∈ seenAttackers af active a) (hVar : af.args + x + 1 = 2 ^ 31) :
    ∃ fault, admissibleNonempty af active s = .fail fault := by
  unfold admissibleNonempty
  dsimp only
  refine Program.bind_eq_fail _ (Program.forIn_eq_fail ?_ ha ?_)
  · intro arg acc
    rw [CadicalSatSolver.addClause2_eq_addClause]
    rcases acc.1.addClause_immediate [-af.acceptedVar arg, -af.rejectedVar arg] with
      ⟨solver, hFirst⟩ | ⟨fault, hFirst⟩
    · rw [hFirst, pure_bind]
      rcases attackerLoop_immediate af active arg (solver, []) with
        ⟨next, hLoop⟩ | ⟨fault, hLoop⟩
      · rw [hLoop, pure_bind]
        rcases next.1.addClause_immediate (next.2 ++ [-af.rejectedVar arg]) with
          ⟨solver, hLast⟩ | ⟨fault, hLast⟩
        · exact Or.inl ⟨(solver, acc.2 ++ [af.acceptedVar arg]), by rw [hLast, pure_bind]⟩
        · exact Or.inr ⟨fault, by rw [hLast, Program.fail_bind]⟩
      · exact Or.inr ⟨fault, by rw [hLoop, Program.fail_bind]⟩
    · exact Or.inr ⟨fault, by rw [hFirst, Program.fail_bind]⟩
  · intro acc
    cases hx with
    | inl hOwn =>
        rw [(addClause2_rejected_fails hLess (hOwn ▸ hVar)).2]
        exact ⟨_, rfl⟩
    | inr hAttacker =>
        rw [CadicalSatSolver.addClause2_eq_addClause]
        rcases acc.1.addClause_immediate [-af.acceptedVar a, -af.rejectedVar a] with
          ⟨solver, hFirst⟩ | ⟨fault, hFirst⟩
        · rw [hFirst, pure_bind]
          exact Program.bind_eq_fail _ (attackerLoop_fails hLess hAttacker hVar (solver, []))
        · exact ⟨fault, by rw [hFirst, Program.fail_bind]⟩

end Program

/-- The active arguments that a valuation accepts, in the order of the array. -/
def acceptedBy (active : IterableBitSet) (vals : Valuation) : List Nat :=
  active.array.filter fun a => vals (a + 1)

/-- The clause that excludes a set and all its supersets, as `enumerate_initial`
adds it after each model. -/
def minimizationClause (af : AF) (set : List Nat) : Clause := set.map fun a => -af.acceptedVar a

@[simp] theorem mem_acceptedBy {active : IterableBitSet} {vals : Valuation} {a : Nat} :
    a ∈ acceptedBy active vals ↔ a ∈ active.array ∧ vals (a + 1) = true := List.mem_filter

/-- The arguments that can be rejected while the given set is accepted, stale
arguments counting as accepted. These are the ones outside of the set that have an
accepted attacker. -/
def rejectedBy (af : AF) (active : IterableBitSet) (set : List Nat) (a : Nat) : Bool :=
  decide (a ∉ set ∧ (a ∉ active.array ∨
    ∃ c ∈ af.attackersOf a, c ∈ set ∨ (active.test c = true ∧ c ∉ active.array)))

/-- A valuation that accepts the given set of active arguments, and with it the
stale ones. It is the model by which the encoding is shown to be complete. -/
def acceptingValuation (af : AF) (active : IterableBitSet) (set : List Nat) : Valuation :=
  fun var =>
    if var ≤ af.args then decide (var - 1 ∈ set ∨ var - 1 ∉ active.array)
    else rejectedBy af active set (var - af.args - 1)

section Semantics

variable {af : AF} {active : IterableBitSet} (hActive : active.Valid af)
  (hValid : LiteralsValid af active)
include hActive hValid

/-- A model satisfies the clause of a set exactly if the set is not part of what the
model accepts. -/
theorem minimizationClause_holds {set : List Nat} (hSet : ∀ a ∈ set, a ∈ active.array)
    (vals : Valuation) : clauseHolds vals (minimizationClause af set) = true ↔
      ¬ setOf set ⊆ setOf (acceptedBy active vals) := by
  have hLiteral : ∀ a ∈ set, litHolds vals (-af.acceptedVar a) = !vals (a + 1) := fun a ha =>
    hValid.holds_not_accepted (hActive.covers a (hSet a ha)) vals
  rw [clauseHolds_iff, Set.not_subset]
  constructor
  · intro hHolds
    obtain ⟨lit, hLit, hHolds⟩ := hHolds
    obtain ⟨a, ha, rfl⟩ := List.mem_map.mp hLit
    rw [hLiteral a ha] at hHolds
    refine ⟨a, ha, fun hAccepted => ?_⟩
    simp [(mem_acceptedBy.mp hAccepted).2] at hHolds
  · intro hRejected
    obtain ⟨a, ha, hNot⟩ := hRejected
    refine ⟨-af.acceptedVar a, List.mem_map_of_mem ha, ?_⟩
    rw [hLiteral a ha]
    simpa [hSet a ha] using hNot

/-- What the clauses of one argument say: if it is accepted then it is not rejected
and its attackers are, and if it is rejected then some attacker of it is accepted. -/
theorem argumentClauses_hold {a : Nat} (ha : a ∈ active.array) (vals : Valuation) :
    (∀ clause ∈ argumentClauses af active a, clauseHolds vals clause = true) ↔
      (vals (a + 1) = true → rejects af vals a = false) ∧
      (∀ b, af.Attacks b a → active.test b = true → vals (a + 1) = true →
        rejects af vals b = true) ∧
      (rejects af vals a = true →
        ∃ b, af.Attacks b a ∧ active.test b = true ∧ vals (b + 1) = true) := by
  have hTest := hActive.covers a ha
  have hOut : clauseHolds vals
        ((seenAttackers af active a).map af.acceptedVar ++ [-af.rejectedVar a]) = true ↔
      (rejects af vals a = true →
        ∃ b, af.Attacks b a ∧ active.test b = true ∧ vals (b + 1) = true) := by
    have hAny : (seenAttackers af active a).any (litHolds vals ∘ af.acceptedVar) = true ↔
        ∃ b, af.Attacks b a ∧ active.test b = true ∧ vals (b + 1) = true := by
      rw [List.any_eq_true]
      apply exists_congr
      intro b
      rw [mem_seenAttackers, and_assoc]
      refine and_congr_right fun _ => and_congr_right fun hb => ?_
      rw [Function.comp_apply, hValid.holds_accepted hb]
    rw [clauseHolds, List.any_append, Bool.or_eq_true, List.any_map, hAny]
    simp only [List.any_cons, List.any_nil, Bool.or_false, hValid.holds_not_rejected hTest]
    cases rejects af vals a <;> simp
  have hPair : ∀ b, active.test b = true →
      (clauseHolds vals [-af.acceptedVar a, af.rejectedVar b] = true ↔
        (vals (a + 1) = true → rejects af vals b = true)) := by
    intro b hb
    simp only [clauseHolds, List.any_cons, List.any_nil, Bool.or_false,
      hValid.holds_not_accepted hTest,
      show litHolds vals (af.rejectedVar b) = rejects af vals b from rfl]
    cases vals (a + 1) <;> simp
  have hOwn : clauseHolds vals [-af.acceptedVar a, -af.rejectedVar a] = true ↔
      (vals (a + 1) = true → rejects af vals a = false) := by
    simp only [clauseHolds, List.any_cons, List.any_nil, Bool.or_false,
      hValid.holds_not_accepted hTest, hValid.holds_not_rejected hTest]
    cases vals (a + 1) <;> simp
  simp only [argumentClauses, attackerClauses, List.cons_append, List.forall_mem_cons,
    List.forall_mem_append, List.forall_mem_map, List.not_mem_nil, false_imp_iff, implies_true,
    and_true, mem_seenAttackers, and_imp, hOwn, hOut]
  refine and_congr_right fun _ => and_congr_left fun _ => ?_
  exact forall_congr' fun b => forall_congr' fun _ => forall_congr' fun hb => hPair b hb

theorem nonEmptyClause_holds (vals : Valuation) :
    clauseHolds vals (active.array.map af.acceptedVar) = true ↔
      (setOf (acceptedBy active vals)).Nonempty := by
  rw [clauseHolds, List.any_map, List.any_eq_true]
  apply exists_congr
  intro a
  rw [mem_setOf, mem_acceptedBy]
  apply and_congr_right
  intro ha
  rw [Function.comp_apply, hValid.holds_accepted (hActive.covers a ha)]

/-- Every model accepts a non-empty set that is admissible with stale helpers. This
needs no more than that each literal has a negation, so that it also holds where
variables have wrapped around. -/
theorem encoding_sound {vals : Valuation}
    (h : ∀ clause ∈ encoding af active, clauseHolds vals clause = true) :
    (setOf (acceptedBy active vals)).Nonempty ∧
      AdmissibleWith af.Attacks active.actives active.stales (setOf (acceptedBy active vals)) := by
  rw [encoding, List.forall_mem_append, List.forall_mem_flatMap] at h
  obtain ⟨hArguments, hNonempty⟩ := h
  have hEach := fun a ha => (argumentClauses_hold hActive hValid (a := a) ha vals).mp
    (hArguments a ha)
  refine ⟨(nonEmptyClause_holds hActive hValid vals).mp (hNonempty _ (by simp)), ?_, ?_, ?_⟩
  · exact fun a ha => (mem_acceptedBy.mp ha).1
  · intro b hb a ha hba
    obtain ⟨hbActive, hbAccepted⟩ := mem_acceptedBy.mp hb
    obtain ⟨haActive, haAccepted⟩ := mem_acceptedBy.mp ha
    have hRejected := (hEach a haActive).2.1 b hba (hActive.covers b hbActive) haAccepted
    simp [(hEach b hbActive).1 hbAccepted] at hRejected
  · intro a ha b hb hba
    obtain ⟨haActive, haAccepted⟩ := mem_acceptedBy.mp ha
    have hRejected := (hEach a haActive).2.1 b hba (hActive.covers b hb) haAccepted
    obtain ⟨c, hcb, hTest, hAccepted⟩ := (hEach b hb).2.2 hRejected
    by_cases hc : c ∈ active.array
    · exact Or.inl ⟨c, mem_acceptedBy.mpr ⟨hc, hAccepted⟩, hcb⟩
    · exact Or.inr ⟨c, ⟨hTest, hc⟩, hcb⟩

omit hActive hValid in
theorem acceptingValuation_accepted {set : List Nat} {a : Nat} (ha : a < af.args) :
    acceptingValuation af active set (a + 1) = true ↔ a ∈ set ∨ a ∉ active.array := by
  have hLess : a + 1 ≤ af.args := ha
  simp [acceptingValuation, hLess]

omit hActive hValid in
theorem acceptingValuation_rejected {set : List Nat} {a : Nat} :
    acceptingValuation af active set (af.args + a + 1) = true ↔ a ∉ set ∧ (a ∉ active.array ∨
      ∃ c ∈ af.attackersOf a, c ∈ set ∨ (active.test c = true ∧ c ∉ active.array)) := by
  have hMore : ¬ af.args + a + 1 ≤ af.args := by omega
  have hArg : af.args + a + 1 - af.args - 1 = a := by omega
  simp only [acceptingValuation, hMore, if_false, hArg, rejectedBy, decide_eq_true_eq]

omit hValid in
/-- The valuation made for a set accepts this set among the active arguments, and
the stale ones do not show. -/
theorem acceptedBy_acceptingValuation {set : List Nat} (hSet : ∀ a ∈ set, a ∈ active.array) :
    setOf (acceptedBy active (acceptingValuation af active set)) = setOf set := by
  ext a
  rw [mem_setOf, mem_setOf, mem_acceptedBy]
  constructor
  · intro hAccepted
    obtain ⟨ha, hAccepted⟩ := hAccepted
    have hCases := (acceptingValuation_accepted (hActive.lt_args a ha)).mp hAccepted
    exact hCases.resolve_right (not_not_intro ha)
  · intro ha
    exact ⟨hSet a ha, (acceptingValuation_accepted (hActive.lt_args a (hSet a ha))).mpr (Or.inl ha)⟩

omit hValid in
/-- Every non-empty set that is admissible with stale helpers is accepted by a
model. Here the literals have to fit, as the valuation is made variable by variable. -/
theorem encoding_complete (hFit : LiteralsFit af active) (h : af.WellFormed) {set : List Nat}
    (hNonempty : (setOf set).Nonempty)
    (hAdm : AdmissibleWith af.Attacks active.actives active.stales (setOf set)) :
    ∀ clause ∈ encoding af active,
      clauseHolds (acceptingValuation af active set) clause = true := by
  have hSet : ∀ a ∈ set, a ∈ active.array := hAdm.subset
  have hAccepted : ∀ a, a ∈ active.array →
      (acceptingValuation af active set (a + 1) = true ↔ a ∈ set) := by
    intro a ha
    rw [acceptingValuation_accepted (hActive.lt_args a ha)]
    simp [ha]
  have hRejected : ∀ a, active.test a = true →
      (rejects af (acceptingValuation af active set) a = true ↔ a ∉ set ∧ (a ∉ active.array ∨
        ∃ c ∈ af.attackersOf a, c ∈ set ∨ (active.test c = true ∧ c ∉ active.array))) := by
    intro a ha
    rw [hFit.rejects ha, acceptingValuation_rejected]
  rw [encoding, List.forall_mem_append, List.forall_mem_flatMap]
  refine ⟨fun a ha => (argumentClauses_hold hActive hFit.valid ha _).mpr ⟨?_, ?_, ?_⟩, ?_⟩
  · intro hIn
    rw [Bool.eq_false_iff, ne_eq, hRejected a (hActive.covers a ha)]
    exact fun hOut => hOut.1 ((hAccepted a ha).mp hIn)
  · intro b hba hTest hIn
    have haSet := (hAccepted a ha).mp hIn
    refine (hRejected b hTest).mpr ⟨fun hb => hAdm.conflictFree b hb a haSet hba, ?_⟩
    by_cases hb : b ∈ active.array
    · rcases hAdm.defended a haSet b hb hba with ⟨c, hc, hcb⟩ | ⟨c, hc, hcb⟩
      · exact Or.inr ⟨c, hcb, Or.inl hc⟩
      · exact Or.inr ⟨c, hcb, Or.inr hc⟩
    · exact Or.inl hb
  · intro hOut
    obtain ⟨c, hca, hc⟩ :=
      ((hRejected a (hActive.covers a ha)).mp hOut).2.resolve_left (not_not_intro ha)
    rcases hc with hc | ⟨hTest, hc⟩
    · exact ⟨c, hca, hActive.covers c (hSet c hc), (hAccepted c (hSet c hc)).mpr hc⟩
    · exact ⟨c, hca, hTest, (acceptingValuation_accepted (h.attacks_lt hca).1).mpr (Or.inr hc)⟩
  · intro clause hClause
    rw [List.mem_singleton.mp hClause, nonEmptyClause_holds hActive hFit.valid,
      acceptedBy_acceptingValuation hActive hSet]
    exact hNonempty

end Semantics

end SerialisationSolver
