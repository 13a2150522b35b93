import SerialisationSolver.Model.SatSolver
import SerialisationSolver.Interaction.Contract

/-! The solver interface as the algorithms use it. Adding a clause or an
assumption changes two lists, and a call of `solve` sees exactly the clauses
added so far and the assumptions made since the call before. -/
namespace SerialisationSolver

open Interaction Satisfiability

namespace CadicalSatSolver

/-- The clauses added so far, without the one that may be unfinished. -/
def clauses (s : CadicalSatSolver) : List Clause := s.solver.clauses

/-- The assumptions that the next call of `solve` sees. Those of the call before are
dropped on the way there. -/
def pending (s : CadicalSatSolver) : List Int := s.solver.transitionToSteadyState.assumptions

/-- No clause is left unfinished, so that `solve` may be called and a new clause may
begin. -/
structure Ready (s : CadicalSatSolver) : Prop where
  state : s.solver.state ≠ .adding
  clause : s.solver.clause = []

/-- After a clause has been added, literal by literal and with its zero. -/
def withClause (s : CadicalSatSolver) (clause : Clause) : CadicalSatSolver :=
  { s with
    solver := { s.solver.transitionToSteadyState with clauses := s.solver.clauses ++ [clause] } }

def withAssumption (s : CadicalSatSolver) (lit : Int) : CadicalSatSolver :=
  { s with solver := { s.solver.transitionToSteadyState with assumptions := s.pending ++ [lit] } }

/-- After a call of `solve` that found a model: the truth values of all arguments
are cached. -/
def withModel (s : CadicalSatSolver) (vals : Valuation) : CadicalSatSolver :=
  { s with
    solver := { s.solver.transitionToSteadyState with state := .satisfied, vals }
    model := (List.range s.decisionVars.toNat).map fun i => vals (i + 1) }

/-- After a call of `solve` that found none: the cached model stays. -/
def withoutModel (s : CadicalSatSolver) (vals : Valuation) : CadicalSatSolver :=
  { s with solver := { s.solver.transitionToSteadyState with state := .unsatisfied, vals } }

section Observers

variable (s : CadicalSatSolver) (clause : Clause) (lit : Int) (vals : Valuation)

@[simp] theorem clauses_withClause : (s.withClause clause).clauses = s.clauses ++ [clause] := rfl
@[simp] theorem clauses_withAssumption : (s.withAssumption lit).clauses = s.clauses := rfl
@[simp] theorem clauses_withModel : (s.withModel vals).clauses = s.clauses := rfl
@[simp] theorem clauses_withoutModel : (s.withoutModel vals).clauses = s.clauses := rfl

@[simp] theorem pending_withClause : (s.withClause clause).pending = s.pending := by
  simp [pending, withClause, Cadical.Solver.transitionToSteadyState]

@[simp] theorem pending_withAssumption : (s.withAssumption lit).pending = s.pending ++ [lit] := by
  simp [pending, withAssumption, Cadical.Solver.transitionToSteadyState]

/-- Assumptions are forgotten once `solve` has answered, with a model or without
one. -/
@[simp] theorem pending_withModel : (s.withModel vals).pending = [] := by
  simp [pending, withModel, Cadical.Solver.transitionToSteadyState]

@[simp] theorem pending_withoutModel : (s.withoutModel vals).pending = [] := by
  simp [pending, withoutModel, Cadical.Solver.transitionToSteadyState]

@[simp] theorem decisionVars_withClause : (s.withClause clause).decisionVars = s.decisionVars := rfl
@[simp] theorem decisionVars_withAssumption :
    (s.withAssumption lit).decisionVars = s.decisionVars := rfl
@[simp] theorem decisionVars_withModel : (s.withModel vals).decisionVars = s.decisionVars := rfl
@[simp] theorem decisionVars_withoutModel : (s.withoutModel vals).decisionVars =
    s.decisionVars := rfl

@[simp] theorem model_withClause : (s.withClause clause).model = s.model := rfl
@[simp] theorem model_withAssumption : (s.withAssumption lit).model = s.model := rfl
@[simp] theorem model_withoutModel : (s.withoutModel vals).model = s.model := rfl
@[simp] theorem model_withModel : (s.withModel vals).model =
    (List.range s.decisionVars.toNat).map fun i => vals (i + 1) := rfl

variable {s}

theorem Ready.withClause (h : s.Ready) : (s.withClause clause).Ready :=
  ⟨by simp [CadicalSatSolver.withClause, Cadical.Solver.transitionToSteadyState], h.clause⟩

theorem Ready.withAssumption (h : s.Ready) : (s.withAssumption lit).Ready :=
  ⟨by simp [CadicalSatSolver.withAssumption, Cadical.Solver.transitionToSteadyState], h.clause⟩

theorem Ready.withModel (h : s.Ready) : (s.withModel vals).Ready :=
  ⟨by simp [CadicalSatSolver.withModel], h.clause⟩

theorem Ready.withoutModel (h : s.Ready) : (s.withoutModel vals).Ready :=
  ⟨by simp [CadicalSatSolver.withoutModel], h.clause⟩

end Observers

/-- After several clauses in a row, as the loops of the encoding add them. -/
def withClauses (s : CadicalSatSolver) (cs : List Clause) : CadicalSatSolver :=
  cs.foldl withClause s

section Clauses

variable (s : CadicalSatSolver) (cs ds : List Clause)

@[simp] theorem withClauses_nil : s.withClauses [] = s := rfl

@[simp] theorem withClauses_cons (c : Clause) :
    s.withClauses (c :: cs) = (s.withClause c).withClauses cs := rfl

theorem withClauses_append : s.withClauses (cs ++ ds) = (s.withClauses cs).withClauses ds :=
  List.foldl_append

@[simp] theorem clauses_withClauses : (s.withClauses cs).clauses = s.clauses ++ cs := by
  induction cs generalizing s with
  | nil => simp
  | cons c cs ih => simp [ih]

@[simp] theorem pending_withClauses : (s.withClauses cs).pending = s.pending := by
  induction cs generalizing s with
  | nil => rfl
  | cons c cs ih => simp [ih]

@[simp] theorem decisionVars_withClauses : (s.withClauses cs).decisionVars = s.decisionVars := by
  induction cs generalizing s with
  | nil => rfl
  | cons c cs ih => simp [ih]

@[simp] theorem model_withClauses : (s.withClauses cs).model = s.model := by
  induction cs generalizing s with
  | nil => rfl
  | cons c cs ih => simp [ih]

variable {s}

theorem Ready.withClauses (h : s.Ready) : (s.withClauses cs).Ready := by
  induction cs generalizing s with
  | nil => exact h
  | cons c cs ih => exact ih (h.withClause c)

end Clauses

/-- After several assumptions in a row, as the loop over the rejected arguments
makes them. -/
def withAssumptions (s : CadicalSatSolver) (lits : List Int) : CadicalSatSolver :=
  lits.foldl withAssumption s

section Assumptions

variable (s : CadicalSatSolver) (lits : List Int)

@[simp] theorem clauses_withAssumptions : (s.withAssumptions lits).clauses = s.clauses := by
  induction lits generalizing s with
  | nil => rfl
  | cons lit lits ih => exact ih _

@[simp] theorem pending_withAssumptions : (s.withAssumptions lits).pending = s.pending ++ lits := by
  induction lits generalizing s with
  | nil => simp [withAssumptions]
  | cons lit lits ih => exact (ih _).trans (by simp)

@[simp] theorem decisionVars_withAssumptions :
    (s.withAssumptions lits).decisionVars = s.decisionVars := by
  induction lits generalizing s with
  | nil => rfl
  | cons lit lits ih => exact ih _

@[simp] theorem model_withAssumptions : (s.withAssumptions lits).model = s.model := by
  induction lits generalizing s with
  | nil => rfl
  | cons lit lits ih => exact ih _

variable {s}

theorem Ready.withAssumptions (h : s.Ready) : (s.withAssumptions lits).Ready := by
  induction lits generalizing s with
  | nil => exact h
  | cons lit lits ih => exact ih (h.withAssumption lit)

end Assumptions

/-- Literals are collected one by one, the first of them leaves the old state. -/
private theorem foldl_add (s : Cadical.Solver) (lits : List Int) (hLits : lits ≠ []) :
    lits.foldl (fun s lit => { s.transitionToSteadyState with
      state := .adding, clause := s.clause ++ [lit] }) s =
      { s.transitionToSteadyState with state := .adding, clause := s.clause ++ lits } := by
  induction lits generalizing s with
  | nil => exact absurd rfl hLits
  | cons lit lits ih =>
      rw [List.foldl_cons]
      rcases eq_or_ne lits [] with rfl | hRest
      · rfl
      · rw [ih _ hRest]
        simp [Cadical.Solver.transitionToSteadyState]

/-- A clause of valid literals is added as a whole. The loop over its literals is a
fold, and the zero ends it. -/
theorem addClause_eq {s : CadicalSatSolver} (hReady : s.Ready) {clause : Clause}
    (hValid : ∀ lit ∈ clause, Cadical.Solver.ValidLit lit) :
    s.addClause clause = pure (s.withClause clause) := by
  have hLoop : (forIn clause s.solver fun lit solver => do
      let solver ← solver.add lit
      pure (ForInStep.yield solver)) =
      pure (clause.foldl (fun s lit =>
        { s.transitionToSteadyState with state := .adding, clause := s.clause ++ [lit] })
        s.solver) := by
    apply Program.forIn_eq_foldl _ (fun _ => True) trivial
    intro lit hLit solver _
    have hNonzero : lit ≠ 0 := (hValid lit hLit).1
    simp [Cadical.Solver.add, hNonzero, hValid lit hLit, Program.pure_eq_done,
      Cadical.Solver.transitionToSteadyState]
  unfold addClause
  rcases eq_or_ne clause [] with rfl | hClause
  · simp [Cadical.Solver.add, withClause, Cadical.Solver.transitionToSteadyState, hReady.clause,
      Program.pure_eq_done]
  · simp only [hLoop, foldl_add s.solver clause hClause]
    simp [Cadical.Solver.add, withClause, Cadical.Solver.transitionToSteadyState, hReady.clause,
      Program.pure_eq_done]

theorem addClause2_eq_addClause (s : CadicalSatSolver) (lit1 lit2 : Int) :
    s.addClause2 lit1 lit2 = s.addClause [lit1, lit2] := by
  simp [addClause, addClause2]

private theorem add_immediate (s : Cadical.Solver) (lit : Int) : (s.add lit).Immediate := by
  unfold Cadical.Solver.add
  split_ifs
  · exact Or.inl ⟨_, rfl⟩
  · exact Or.inl ⟨_, rfl⟩
  · exact Or.inr ⟨_, rfl⟩

theorem addClause_immediate (s : CadicalSatSolver) (clause : Clause) :
    (s.addClause clause).Immediate := by
  refine Program.Immediate.bind (.forIn fun lit solver => ?_) fun solver => ?_
  · exact (add_immediate solver lit).bind fun _ => Or.inl ⟨_, rfl⟩
  · exact (add_immediate solver 0).bind fun _ => Or.inl ⟨_, rfl⟩

/-- A literal that no `int` can hold stops the program, even if the one before it
was taken. -/
theorem addClause2_fails (s : CadicalSatSolver) {lit1 lit2 : Int}
    (hFirst : Cadical.Solver.ValidLit lit1)
    (hNonzero : lit2 ≠ 0) (hInvalid : ¬ Cadical.Solver.ValidLit lit2) :
    s.addClause2 lit1 lit2 = .fail .invalidLiteral := by
  simp [addClause2, Cadical.Solver.add, hFirst, hFirst.1, hNonzero, hInvalid, Program.pure_eq_done]

theorem addClause2_immediate (s : CadicalSatSolver) (lit1 lit2 : Int) :
    (s.addClause2 lit1 lit2).Immediate := by
  rw [addClause2_eq_addClause]
  exact s.addClause_immediate _

theorem assume_immediate (s : CadicalSatSolver) (lit : Int) : (s.assume lit).Immediate := by
  unfold assume Cadical.Solver.assume
  split_ifs
  · exact Or.inl ⟨_, rfl⟩
  · exact Or.inr ⟨_, rfl⟩

section Fuel

variable {admits : Query → Answer → Prop}

private theorem add_avoids (s : Cadical.Solver) (lit : Int) :
    Program.Avoids admits .outOfFuel (s.add lit : M Cadical.Solver) := by
  unfold Cadical.Solver.add
  split_ifs
  · exact Program.avoids_pure _
  · exact Program.avoids_pure _
  · exact Program.avoids_fail.mpr (by decide)

/-- Adding a clause needs no fuel, since its loop is over the literals. -/
theorem addClause_avoids (s : CadicalSatSolver) (clause : Clause) :
    Program.Avoids admits .outOfFuel (s.addClause clause) := by
  refine Program.Avoids.bind (.forIn fun lit _ solver => ?_) fun solver => ?_
  · exact (add_avoids solver lit).bind fun _ => Program.avoids_pure _
  · exact (add_avoids solver 0).bind fun _ => Program.avoids_pure _

theorem addClause2_avoids (s : CadicalSatSolver) (lit1 lit2 : Int) :
    Program.Avoids admits .outOfFuel (s.addClause2 lit1 lit2) := by
  rw [addClause2_eq_addClause]
  exact s.addClause_avoids _

end Fuel

theorem assume_eq (s : CadicalSatSolver) {lit : Int} (hValid : Cadical.Solver.ValidLit lit) :
    s.assume lit = pure (s.withAssumption lit) := by
  simp [assume, Cadical.Solver.assume, hValid, withAssumption, pending, Program.pure_eq_done]

/-- The cached model holds what the valuation says, as far as the cache goes. -/
theorem accepts_withModel {s : CadicalSatSolver} {arg : Nat} (hArg : (arg : Int) < s.decisionVars)
    (vals : Valuation) : (s.withModel vals).model.getD arg false = vals (arg + 1) := by
  have hLess : arg < s.decisionVars.toNat := by omega
  simp [hLess]

/-- The literal that `val` returns is positive exactly for true variables, which is
how the source reads a model. -/
private theorem val_pos (vals : Valuation) (i : Nat) :
    decide (0 < if vals ((i : Int) + 1).natAbs = true then (i : Int) + 1 else -((i : Int) + 1)) =
      vals (i + 1) := by
  have hAbs : ((i : Int) + 1).natAbs = i + 1 := by omega
  rw [hAbs]
  cases vals (i + 1)
  · simp only [Bool.false_eq_true, if_false]
    exact decide_eq_false (by omega)
  · simp only [if_true]
    exact decide_eq_true (by omega)

/-- One call of `solve` asks one question and caches the model of the answer.
Answers with other codes end the process. -/
theorem solve_eq {s : CadicalSatSolver} (hReady : s.Ready) :
    s.solve = .ask ⟨s.clauses, s.pending⟩ fun answer =>
      if answer.res = 10 then
        if s.decisionVars = 2 ^ 31 - 1 then .fail .overflow
        else .done (satV, s.withModel answer.vals)
      else if answer.res = 20 then .done (unsatV, s.withoutModel answer.vals)
      else .fail .exit := by
  have hRead : ∀ vals : Valuation, ((List.range s.decisionVars.toNat).mapM fun (i : Nat) =>
      (s.withModel vals).solver.val (i + 1)) =
        pure ((List.range s.decisionVars.toNat).map fun (i : Nat) =>
          if vals ((i : Int) + 1).natAbs then (i : Int) + 1 else -((i : Int) + 1)) := by
    intro vals
    rw [← List.mapM_pure]
    rfl
  unfold solve Cadical.Solver.solve Program.request
  rw [if_neg hReady.state]
  simp only [Program.ask_bind, Program.done_bind, pure_bind]
  refine congrArg (Program.ask _) (funext fun answer => ?_)
  by_cases hSat : answer.res = 10
  · by_cases hLast : s.decisionVars = 2 ^ 31 - 1
    · simp [hSat, satV, unsatV, hLast]
    · have hVals := hRead answer.vals
      simp only [withModel] at hVals
      have hModel : (List.range s.decisionVars.toNat).map (fun (i : Nat) => decide (0 <
          if answer.vals ((i : Int) + 1).natAbs then (i : Int) + 1 else -((i : Int) + 1))) =
          (List.range s.decisionVars.toNat).map fun i => answer.vals (i + 1) :=
        List.map_congr_left fun i _ => val_pos answer.vals i
      simp only [hSat, satV, unsatV, if_true, hLast, if_false, withModel, hVals, pure_bind,
        List.map_map, Function.comp_def, hModel]
      rfl
  · by_cases hUnsat : answer.res = 20
    · simp [hUnsat, satV, unsatV, withoutModel, Program.pure_eq_done]
    · simp [hSat, hUnsat, satV, unsatV]

/-- A call of `solve` emits nothing, whatever it is answered. -/
theorem solve_emits (allowed : Event → Prop) (s : CadicalSatSolver) : s.solve.Emits allowed := by
  have hVal : ∀ (solver : Cadical.Solver) lit, (solver.val lit).Immediate := by
    intro solver lit
    by_cases hState : solver.state = .satisfied
    · exact Or.inl ⟨_, if_pos hState⟩
    · exact Or.inr ⟨_, if_neg hState⟩
  refine Program.Emits.bind ?_ fun ⟨sat, solver⟩ => Program.Immediate.emits ?_
  · unfold Cadical.Solver.solve
    split_ifs
    · exact Program.Immediate.emits (Or.inr ⟨_, rfl⟩)
    · exact (Program.emits_request _).bind fun answer => Program.Immediate.emits (Or.inl ⟨_, rfl⟩)
  · dsimp only
    split_ifs
    · exact Or.inr ⟨_, rfl⟩
    · exact Or.inr ⟨_, rfl⟩
    · exact (Program.Immediate.mapM fun i => hVal solver _).bind fun vals => Or.inl ⟨_, rfl⟩
    · exact Or.inl ⟨_, rfl⟩

end CadicalSatSolver

end SerialisationSolver
