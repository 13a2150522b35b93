import SerialisationSolver.Correctness.Trim
import SerialisationSolver.Interaction.Lockstep

/-! The clause that is commented out in `src/EE-IT.cpp`. The set that is pushed
comes from the last model, whose minimisation clause is already there, so the
program with the clause asks the same questions in all but repetition. -/
namespace SerialisationSolver

open Interaction Interaction.Program Satisfiability

/-- The questions have the same clauses up to order and repetition, and the same
assumptions. A solver that answers one of them correctly has answered the other. -/
def SameQuestion (query query' : Query) : Prop :=
  query.assumptions = query'.assumptions ∧ ∀ clause, clause ∈ query.clauses ↔
    clause ∈ query'.clauses

theorem SameQuestion.models_eq {query query' : Query} (h : SameQuestion query query')
    (vals : Valuation) :
    models vals query = models vals query' := by
  rw [Bool.eq_iff_iff, models_iff, models_iff, h.1]
  exact and_congr_left' (forall_congr' fun clause => by rw [h.2 clause])

theorem SameQuestion.correct {query query' : Query} {answer : Answer}
    (h : SameQuestion query query') (hCorrect : Correct query' answer) : Correct query answer := by
  simpa only [Correct, h.models_eq] using hCorrect

/-- The second solver may hold clauses of the first one repeatedly; otherwise the
two are in the same state, the cached model included. -/
structure SameSolver (s s' : CadicalSatSolver) : Prop where
  ready : s.Ready
  ready' : s'.Ready
  vars : s.decisionVars = s'.decisionVars
  model : s.model = s'.model
  question : SameQuestion ⟨s.clauses, s.pending⟩ ⟨s'.clauses, s'.pending⟩

section SameSolver

variable {s s' : CadicalSatSolver} (h : SameSolver s s')
include h

theorem SameSolver.accepts_eq : s.accepts = s'.accepts := by
  funext a
  rw [CadicalSatSolver.accepts, h.model]
  rfl

theorem SameSolver.withModel (vals : Valuation) :
    SameSolver (s.withModel vals) (s'.withModel vals) where
  ready := h.ready.withModel vals
  ready' := h.ready'.withModel vals
  vars := h.vars
  model := by simp [h.vars]
  question := ⟨by simp, h.question.2⟩

theorem SameSolver.withoutModel (vals : Valuation) :
    SameSolver (s.withoutModel vals) (s'.withoutModel vals) where
  ready := h.ready.withoutModel vals
  ready' := h.ready'.withoutModel vals
  vars := h.vars
  model := h.model
  question := ⟨by simp, h.question.2⟩

theorem SameSolver.withAssumptions (lits : List Int) :
    SameSolver (s.withAssumptions lits) (s'.withAssumptions lits) where
  ready := h.ready.withAssumptions lits
  ready' := h.ready'.withAssumptions lits
  vars := by simpa using h.vars
  model := by simpa using h.model
  question := ⟨by simpa using h.question.1, by simpa using h.question.2⟩

theorem SameSolver.withClause (clause : Clause) :
    SameSolver (s.withClause clause) (s'.withClause clause) where
  ready := h.ready.withClause clause
  ready' := h.ready'.withClause clause
  vars := h.vars
  model := h.model
  question := by
    refine ⟨by simpa using h.question.1, fun other => ?_⟩
    simp [h.question.2 other]

/-- A clause that is there already changes no question. This is the only step in
which the second solver does something on its own. -/
theorem SameSolver.repeat {clause : Clause} (hClause : clause ∈ s.clauses) :
    SameSolver s (s'.withClause clause) where
  ready := h.ready
  ready' := h.ready'.withClause clause
  vars := h.vars
  model := h.model
  question := by
    refine ⟨by simpa using h.question.1, fun other => ?_⟩
    simp only [CadicalSatSolver.clauses_withClause, List.mem_append, List.mem_singleton]
    constructor
    · exact fun hOther => Or.inl ((h.question.2 other).mp hOther)
    · rintro (hOther | rfl)
      · exact (h.question.2 other).mpr hOther
      · exact hClause

end SameSolver

section Loops

variable {af : AF} {active : IterableBitSet}

/-- The minimisation clause of the cached model has been added. It says of the
accepted arguments what the complement clause would say. -/
def Excluded (af : AF) (active : IterableBitSet) (s : CadicalSatSolver) : Prop :=
  minimizationClause af (active.array.filter s.accepts) ∈ s.clauses

/-- Assumptions and clauses leave the cached model as it is, so that its clause can
be added after the assumptions. -/
theorem excluded_withClause (s : CadicalSatSolver) (lits : List Int) :
    Excluded af active ((s.withAssumptions lits).withClause
      (minimizationClause af (active.array.filter s.accepts))) := by
  have hAccepts : ((s.withAssumptions lits).withClause
      (minimizationClause af (active.array.filter s.accepts))).accepts = s.accepts := by
    funext a
    simp [CadicalSatSolver.accepts]
  rw [Excluded, hAccepts, CadicalSatSolver.clauses_withClause]
  exact List.mem_append_right _ (List.mem_singleton.mpr rfl)

variable (hActive : active.Valid af) (hValid : LiteralsValid af active)
include hActive hValid

/-- When the inner loop has found a model, its clause is the last one added. In the
pass that finds no model the cached one and its clause stay. -/
theorem minimizeModel_lockstep (fuel : Nat) {s s' : CadicalSatSolver} {foundExtension : Bool}
    (hSame : SameSolver s s') (hExcluded : foundExtension = true → Excluded af active s) :
    Lockstep SameQuestion (fun out out' => out.2 = out'.2 ∧ SameSolver out.1 out'.1 ∧
        (out.2 = true → Excluded af active out.1))
      (minimizeModel af active fuel s foundExtension : M _)
      (minimizeModel af active fuel s' foundExtension) := by
  induction fuel generalizing s s' foundExtension with
  | zero => exact .fail _
  | succ fuel ih =>
      rw [minimizeModel, minimizeModel, CadicalSatSolver.solve_eq hSame.ready,
        CadicalSatSolver.solve_eq hSame.ready', ask_bind, ask_bind, ← hSame.vars]
      refine .ask hSame.question fun answer => ?_
      by_cases hSat : answer.res = 10
      · simp only [hSat, if_true]
        by_cases hLast : s.decisionVars = 2 ^ 31 - 1
        · simp only [hLast, if_true, fail_bind]
          exact .fail _
        · simp only [hLast, if_false, done_bind]
          have hModel := hSame.withModel answer.vals
          have hAccepts := hModel.accepts_eq
          rw [if_neg (by decide), if_neg (by decide), excludeModel_eq hActive hValid hModel.ready,
            excludeModel_eq hActive hValid hModel.ready', pure_bind, pure_bind, ← hAccepts]
          exact ih ((hModel.withAssumptions _).withClause _) fun _ => excluded_withClause _ _
      · by_cases hUnsat : answer.res = 20
        · simp only [hUnsat]
          exact .done ⟨rfl, hSame.withoutModel answer.vals, hExcluded⟩
        · simp only [hSat, hUnsat, if_false]
          exact .fail _

/-- The complement clause is the minimisation clause of the last model, so that
adding it repeats a clause and the loops go on in lockstep. -/
theorem enumerateModels_lockstep (fuel : Nat) {s s' : CadicalSatSolver} (hSame : SameSolver s s')
    (result : List (List Nat)) : Lockstep SameQuestion Eq
      (enumerateModels af active fuel s result)
      (enumerateModelsComplement af active fuel s' result) := by
  induction fuel generalizing s s' result with
  | zero => exact .fail _
  | succ fuel ih =>
      rw [enumerateModels, enumerateModelsComplement]
      apply (minimizeModel_lockstep hActive hValid (fuel + 1) hSame (by simp)).bind
      rintro ⟨t, foundExtension⟩ ⟨t', _⟩ ⟨rfl, hNext, hExcluded⟩
      cases foundExtension with
      | false => exact .done rfl
      | true =>
          have hAccepts := hNext.accepts_eq
          have hClause := minimizationClause_valid hActive hValid fun a ha =>
            List.mem_of_mem_filter (p := t.accepts) ha
          have hAdd :
            t'.addClause ((active.array.filter t.accepts).map fun a => -af.acceptedVar a) =
              pure (t'.withClause (minimizationClause af (active.array.filter t.accepts))) :=
            CadicalSatSolver.addClause_eq hNext.ready' hClause
          simp only [if_true, ← hAccepts]
          apply Lockstep.log
          rw [hAdd, pure_bind]
          exact ih (hNext.repeat (hExcluded rfl)) _

end Loops

/-- With or without the clause, the program does the same. This also covers literals
out of range, where both fail in the encoding. -/
theorem enumerateInitial_lockstep {af : AF} (h : af.WellFormed) {active : IterableBitSet}
    (hActive : active.Valid af) (fuel : Nat) : Lockstep SameQuestion Eq
      (enumerateInitial fuel af active) (enumerateInitialComplement fuel af active) := by
  rcases enumerateInitial_cases h hActive with ⟨-, fault, -, hFails⟩ | ⟨hArgs, hValid⟩
  · rw [(hFails fuel).1, (hFails fuel).2]
    exact .fail fault
  · rw [← enumerateInitial_trim h hActive, ← enumerateInitialComplement_trim h hActive]
    have hTrim := trim_valid hActive
    by_cases hArray : active.array = []
    · have hNone : (active.trim af).array.isEmpty = true := List.isEmpty_iff.mpr hArray
      rw [enumerateInitial, enumerateInitialComplement, if_pos hNone, if_pos hNone]
      exact .done rfl
    · have hSome : (active.trim af).array ≠ [] := hArray
      have hReady :
          (⟨Cadical.Solver.new, af.args, List.replicate af.args false⟩ : CadicalSatSolver).Ready :=
        ⟨by simp [Cadical.Solver.new], rfl⟩
      have hEncoded := hReady.withClauses (encoding af (active.trim af))
      rw [enumerateInitial_eq hSome, enumerateInitialComplement_eq hSome, prepare,
        new_eq (hArgs hArray),
        pure_bind, admissibleNonempty_eq hTrim hValid hReady, pure_bind, pure_bind]
      exact enumerateModels_lockstep hTrim hValid fuel
        ⟨hEncoded, hEncoded, rfl, rfl, rfl, fun _ => Iff.rfl⟩ []

end SerialisationSolver
