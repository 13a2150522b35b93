import SerialisationSolver.Interaction.Lockstep
import SerialisationSolver.Model.SolverClass
import SerialisationSolver.Correctness.SolverInterface

/-! What the solver class is for: an incremental solver as its user thinks of it,
and why the class behaves like one. -/
namespace SerialisationSolver

open Interaction Interaction.Program Satisfiability

/-- An incremental solver as its user thinks of it: the clauses so far, the
assumptions for the next question, and what was stored of the last models. -/
structure Session where
  clauses : List Clause
  assumptions : List Int
  model : List Bool
  extension : List Nat

namespace Session

def start (nArgs : Nat) : Session := ⟨[], [], List.replicate nArgs false, List.replicate nArgs 0⟩

/-- One more clause, which stays for all later questions. -/
def assert (t : Session) (clause : Clause) : Session := { t with clauses := t.clauses ++ [clause] }

/-- Some more assumptions for the next question. -/
def suppose (t : Session) (lits : List Int) : Session :=
  { t with assumptions := t.assumptions ++ lits }

/-- The model is stored as one truth value for each argument, from the first
variable on. -/
def storeModel (nArgs : Nat) (vals : Valuation) (t : Session) : Session :=
  { t with model := (List.range nArgs).map fun i => vals (i + 1) }

/-- The arguments that the model accepts are stored, in their order. -/
def storeExtension (nArgs : Nat) (vals : Valuation) (t : Session) : Session :=
  { t with extension := (List.range nArgs).filter fun i => vals (i + 1) }

/-- One question about all clauses. The assumptions are used up, and only a model
changes what is stored. -/
def ask (t : Session) (store : Valuation → Session → Session) : M (Option Int × Session) :=
  .ask ⟨t.clauses, t.assumptions⟩ fun answer =>
    if answer.res = 10 then .done (some satV, store answer.vals { t with assumptions := [] })
    else if answer.res = 20 then .done (some unsatV, { t with assumptions := [] })
    else .fail .exit

/-- What each call of the class means for the session. This is the purpose of the
class in its own terms; none of it is translated from the methods. -/
def perform (nArgs : Nat) (t : Session) : SolverCall → M (Option Int × Session)
  | .addClause clause => pure (none, t.assert clause)
  | .addClause1 lit => pure (none, t.assert [lit])
  | .addClause2 lit1 lit2 => pure (none, t.assert [lit1, lit2])
  | .addClause3 lit1 lit2 lit3 => pure (none, t.assert [lit1, lit2, lit3])
  | .assume lit => pure (none, t.suppose [lit])
  | .solve => t.ask (storeModel nArgs)
  | .solveExtension => t.ask fun vals t => storeExtension nArgs vals (storeModel nArgs vals t)
  | .solveUnder assumptions => (t.suppose assumptions).ask (storeModel nArgs)

def performAll (nArgs : Nat) (t : Session) :
    List SolverCall → M (List (Option Int × List Bool × List Nat))
  | [] => return []
  | call :: calls => do
      let (sat, t) ← t.perform nArgs call
      let later ← t.performAll nArgs calls
      return (sat, t.model, t.extension) :: later

end Session

/-- All literals of the call are in the range that the solver takes. Others are
refused, and the process ends. -/
def SolverCall.Valid : SolverCall → Prop
  | .addClause clause => ∀ lit ∈ clause, Cadical.Solver.ValidLit lit
  | .addClause1 lit => Cadical.Solver.ValidLit lit
  | .addClause2 lit1 lit2 => Cadical.Solver.ValidLit lit1 ∧ Cadical.Solver.ValidLit lit2
  | .addClause3 lit1 lit2 lit3 =>
      Cadical.Solver.ValidLit lit1 ∧ Cadical.Solver.ValidLit lit2 ∧ Cadical.Solver.ValidLit lit3
  | .assume lit => Cadical.Solver.ValidLit lit
  | .solve | .solveExtension => True
  | .solveUnder assumptions => ∀ lit ∈ assumptions, Cadical.Solver.ValidLit lit

/-- The object stands for the session: it is ready for any call, and the two hold
the same clauses, assumptions and stored vectors. -/
structure Represents (nArgs : Nat) (s : SolverObject) (t : Session) : Prop where
  ready : s.Ready
  clauses : s.clauses = t.clauses
  pending : s.pending = t.assumptions
  decisionVars : s.decisionVars = nArgs
  model : s.model = t.model
  extension : s.extension = t.extension

section

variable {nArgs : Nat} {s : SolverObject} {t : Session} (h : Represents nArgs s t)
include h

/-- A method that adds a clause does so in both, and leaves the rest of them alone. -/
theorem Represents.assert (clause : Clause) :
    Represents nArgs { s with toCadicalSatSolver := s.toCadicalSatSolver.withClause clause }
    (t.assert clause) where
  ready := h.ready.withClause clause
  clauses := by rw [CadicalSatSolver.clauses_withClause, h.clauses, Session.assert]
  pending := by rw [CadicalSatSolver.pending_withClause, h.pending, Session.assert]
  decisionVars := h.decisionVars
  model := h.model
  extension := h.extension

theorem Represents.suppose (lit : Int) :
    Represents nArgs { s with toCadicalSatSolver := s.toCadicalSatSolver.withAssumption lit }
      (t.suppose [lit]) where
  ready := h.ready.withAssumption lit
  clauses := h.clauses
  pending := by rw [CadicalSatSolver.pending_withAssumption, h.pending, Session.suppose]
  decisionVars := h.decisionVars
  model := h.model
  extension := h.extension

/-- Adding a clause literal by literal, with its zero, is adding the clause. -/
theorem SolverObject.addClause_eq {clause : Clause}
    (hValid : ∀ lit ∈ clause, Cadical.Solver.ValidLit lit) :
    s.addClause clause =
      pure { s with toCadicalSatSolver := s.toCadicalSatSolver.withClause clause } := by
  rw [addClause, lift, CadicalSatSolver.addClause_eq h.ready hValid, pure_bind]

omit h in
theorem SolverObject.addClause1_eq (lit : Int) : s.addClause1 lit = s.addClause [lit] := by
  simp [addClause1, addClause, lift, CadicalSatSolver.addClause]

omit h in
theorem SolverObject.addClause2_eq (lit1 lit2 : Int) :
    s.addClause2 lit1 lit2 = s.addClause [lit1, lit2] := by
  simp only [addClause2, addClause, CadicalSatSolver.addClause2_eq_addClause]

omit h in
theorem SolverObject.addClause3_eq (lit1 lit2 lit3 : Int) :
    s.addClause3 lit1 lit2 lit3 = s.addClause [lit1, lit2, lit3] := by
  simp [addClause3, addClause, lift, CadicalSatSolver.addClause]

omit h in
theorem SolverObject.assume_eq {lit : Int} (hValid : Cadical.Solver.ValidLit lit) :
    s.assume lit =
      pure { s with toCadicalSatSolver := s.toCadicalSatSolver.withAssumption lit } := by
  rw [assume, lift, CadicalSatSolver.assume_eq _ hValid, pure_bind]

/-- What the object is after a question that was answered by a model. -/
def SolverObject.withModel (s : SolverObject) (vals : Valuation) : SolverObject :=
  { s with toCadicalSatSolver := s.toCadicalSatSolver.withModel vals }

/-- What the object is after a question without a model: the vectors are those of
the model before. -/
def SolverObject.withoutModel (s : SolverObject) (vals : Valuation) : SolverObject :=
  { s with toCadicalSatSolver := s.toCadicalSatSolver.withoutModel vals }

theorem Represents.storeModel (vals : Valuation) : Represents nArgs (s.withModel vals)
    (Session.storeModel nArgs vals { t with assumptions := [] }) where
  ready := h.ready.withModel vals
  clauses := h.clauses
  pending := CadicalSatSolver.pending_withModel _ _
  decisionVars := h.decisionVars
  model := by rw [SolverObject.withModel, CadicalSatSolver.model_withModel, h.decisionVars,
    Int.toNat_natCast, Session.storeModel]
  extension := h.extension

theorem Represents.storeExtension (vals : Valuation) :
    Represents nArgs
      { s.withModel vals with extension := (List.range nArgs).filter fun i => vals (i + 1) }
      (Session.storeExtension nArgs vals
        (Session.storeModel nArgs vals { t with assumptions := [] })) where
  ready := h.ready.withModel vals
  clauses := h.clauses
  pending := CadicalSatSolver.pending_withModel _ _
  decisionVars := h.decisionVars
  model := (h.storeModel vals).model
  extension := rfl

theorem Represents.withoutModel (vals : Valuation) :
    Represents nArgs (s.withoutModel vals) { t with assumptions := [] } where
  ready := h.ready.withoutModel vals
  clauses := h.clauses
  pending := CadicalSatSolver.pending_withoutModel _ _
  decisionVars := h.decisionVars
  model := h.model
  extension := h.extension

/-- The same code is returned, and object and session belong together afterwards. -/
def Matches (nArgs : Nat) (out : Option Int × SolverObject) (out' : Option Int × Session) : Prop :=
  out.1 = out'.1 ∧ Represents nArgs out.2 out'.2

/-- One call of `solve` asks the question of the session and stores the model. The
bound keeps the counter of its loop in range. -/
theorem SolverObject.solve_lockstep (hArgs : nArgs < 2 ^ 31 - 1) :
    Lockstep Eq (Matches nArgs) (s.perform .solve) (t.ask (Session.storeModel nArgs)) := by
  have hCounter : s.decisionVars ≠ 2 ^ 31 - 1 := by
    have hVars := h.decisionVars
    omega
  simp only [perform, solve, CadicalSatSolver.solve_eq h.ready, ask_bind]
  refine .ask (by rw [h.clauses, h.pending]) fun answer => ?_
  by_cases hSat : answer.res = 10
  · rw [if_pos hSat, if_pos hSat, if_neg hCounter]
    exact .done ⟨rfl, h.storeModel answer.vals⟩
  · by_cases hUnsat : answer.res = 20
    · rw [if_neg hSat, if_neg hSat, if_pos hUnsat, if_pos hUnsat]
      exact .done ⟨rfl, h.withoutModel answer.vals⟩
    · rw [if_neg hSat, if_neg hSat, if_neg hUnsat, if_neg hUnsat]
      exact .fail _

omit h in
/-- The loop that reads the model and collects its arguments, as two expressions in
the valuation. -/
theorem readModel_eq (solver : Cadical.Solver) (hState : solver.state = .satisfied) (n : Nat) :
    (forIn (List.range n) (([] : List Bool), ([] : List Nat)) fun (i : Nat) acc => do
      let value ← solver.val (i + 1)
      if 0 < value then pure (ForInStep.yield (acc.1 ++ [true], acc.2 ++ [i]))
      else pure (ForInStep.yield (acc.1 ++ [false], acc.2))) =
    (pure ((List.range n).map fun i => solver.vals (i + 1),
      (List.range n).filter fun i => solver.vals (i + 1)) :
      M (List Bool × List Nat)) := by
  rw [forIn_eq_foldl (fun acc i => (acc.1 ++ [solver.vals (i + 1)],
    if solver.vals (i + 1) then acc.2 ++ [i] else acc.2)) (fun _ => True) trivial]
  · refine congrArg pure ?_
    induction n with
    | zero => rfl
    | succ n ih =>
        rw [List.range_succ, List.foldl_append, ih, List.foldl_cons, List.foldl_nil,
          List.map_append, List.filter_append]
        cases hValue : solver.vals (n + 1) with
        | true => simp [hValue]
        | false => simp [hValue]
  · intro i _ acc _
    have hAbs : ((i : Int) + 1).natAbs = i + 1 := by omega
    rw [Cadical.Solver.val, if_pos hState, pure_bind, hAbs]
    cases solver.vals (i + 1) with
    | true => exact ⟨if_pos (show (0 : Int) < i + 1 by omega), trivial⟩
    | false => exact ⟨if_neg (show ¬ (0 : Int) < -(i + 1) by omega), trivial⟩

/-- One call of `solve_extension` does the same and fills the second vector as well. -/
theorem SolverObject.solveExtension_lockstep (hArgs : nArgs < 2 ^ 31 - 1) :
    Lockstep Eq (Matches nArgs) (s.perform .solveExtension)
      (t.ask fun vals t =>
        Session.storeExtension nArgs vals (Session.storeModel nArgs vals t)) := by
  have hCounter : s.decisionVars ≠ 2 ^ 31 - 1 := by
    have hVars := h.decisionVars
    omega
  simp only [perform, solveExtension, Cadical.Solver.solve, if_neg h.ready.state, Program.request,
    ask_bind, done_bind, pure_bind]
  refine .ask (by rw [← h.clauses, ← h.pending]; rfl) fun answer => ?_
  by_cases hSat : answer.res = 10
  · rw [if_pos hSat]
    have hVars : s.decisionVars.toNat = nArgs := by rw [h.decisionVars, Int.toNat_natCast]
    have hRead := readModel_eq (s.toCadicalSatSolver.withModel answer.vals).solver rfl nArgs
    simp only [CadicalSatSolver.withModel] at hRead
    have hStored := h.storeExtension answer.vals
    simp only [SolverObject.withModel, CadicalSatSolver.withModel, hVars] at hStored
    simp only [hSat, satV, unsatV, if_true, hCounter, if_false, hVars, hRead, pure_bind]
    exact .done ⟨rfl, hStored⟩
  · by_cases hUnsat : answer.res = 20
    · rw [if_neg hSat, if_pos hUnsat]
      simp only [hUnsat, satV, unsatV]
      exact .done ⟨rfl, h.withoutModel answer.vals⟩
    · simp [hSat, hUnsat, satV, unsatV]
      exact .fail _

theorem SolverObject.assumeAll_eq {lits : List Int}
    (hValid : ∀ lit ∈ lits, Cadical.Solver.ValidLit lit) :
    ∃ s', (forIn lits s fun lit s => do
      let s ← s.assume lit
      pure (ForInStep.yield s)) = (pure s' : M SolverObject) ∧
        Represents nArgs s' (t.suppose lits) := by
  induction lits generalizing s t with
  | nil =>
      refine ⟨s, rfl, ?_⟩
      rwa [show t.suppose [] = t by simp [Session.suppose]]
  | cons lit lits ih =>
      rw [List.forall_mem_cons] at hValid
      obtain ⟨s', hLoop, hAfter⟩ := ih (h.suppose lit) hValid.2
      refine ⟨s', ?_, ?_⟩
      · rw [List.forIn_cons, assume_eq hValid.1, pure_bind, pure_bind]
        exact hLoop
      · rwa [show t.suppose (lit :: lits) =
          (t.suppose [lit]).suppose lits by simp [Session.suppose]]

/-- One call on the object does what the call means, kind by kind. -/
theorem SolverObject.perform_lockstep (hArgs : nArgs < 2 ^ 31 - 1) {call : SolverCall}
    (hValid : call.Valid) : Lockstep Eq (Matches nArgs) (s.perform call)
    (t.perform nArgs call) := by
  cases call with
  | addClause clause =>
      rw [perform, addClause_eq h hValid, pure_bind]
      exact .done ⟨rfl, h.assert clause⟩
  | addClause1 lit =>
      rw [perform, addClause1_eq, addClause_eq h (by simpa [SolverCall.Valid] using hValid),
        pure_bind]
      exact .done ⟨rfl, h.assert [lit]⟩
  | addClause2 lit1 lit2 =>
      rw [perform, addClause2_eq, addClause_eq h (by simpa [SolverCall.Valid] using hValid),
        pure_bind]
      exact .done ⟨rfl, h.assert [lit1, lit2]⟩
  | addClause3 lit1 lit2 lit3 =>
      rw [perform, addClause3_eq, addClause_eq h (by simpa [SolverCall.Valid] using hValid),
        pure_bind]
      exact .done ⟨rfl, h.assert [lit1, lit2, lit3]⟩
  | assume lit =>
      rw [perform, assume_eq hValid, pure_bind]
      exact .done ⟨rfl, h.suppose lit⟩
  | solve => exact solve_lockstep h hArgs
  | solveExtension => exact solveExtension_lockstep h hArgs
  | solveUnder assumptions =>
      obtain ⟨s', hLoop, hAfter⟩ := assumeAll_eq h hValid
      simp only [perform, solveUnder, hLoop, pure_bind]
      exact solve_lockstep hAfter hArgs

/-- Any calls in a row do what they mean. By induction on the calls, where each
starts from an object that stands for a session. -/
theorem SolverObject.performAll_eq (hArgs : nArgs < 2 ^ 31 - 1) {calls : List SolverCall}
    (hValid : ∀ call ∈ calls, call.Valid) : s.performAll calls = t.performAll nArgs calls := by
  induction calls generalizing s t with
  | nil => rfl
  | cons call calls ih =>
      rw [List.forall_mem_cons] at hValid
      rw [performAll, Session.performAll]
      apply (perform_lockstep h hArgs hValid.1).bind_eq
      rintro ⟨sat, s'⟩ ⟨sat', t'⟩ ⟨rfl, hAfter⟩
      dsimp only
      rw [ih hAfter hValid.2, hAfter.model, hAfter.extension]

end

end SerialisationSolver
