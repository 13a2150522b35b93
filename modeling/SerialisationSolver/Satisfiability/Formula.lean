import Mathlib.Data.List.Sublists
import Mathlib.Data.List.Dedup
import Mathlib.Data.Int.Order.Basic

/-! Clauses over signed variable numbers, and what a decision procedure for
them answers. The numbering is that of the DIMACS format: the variable of a
literal is its absolute value, its sign is the polarity. -/
namespace Satisfiability

/-- A disjunction of literals, each of them a number other than zero. The zero that
ends a clause in the format is not part of it. -/
abbrev Clause := List Int

/-- A truth value for every variable, also for those that a formula does not
mention. -/
abbrev Valuation := Nat → Bool

/-- A positive literal holds if its variable is true, any other literal if its
variable is false. -/
def litHolds (vals : Valuation) (lit : Int) : Bool :=
  if 0 < lit then vals lit.natAbs else !vals lit.natAbs

/-- A clause holds if one of its literals does; the empty clause never holds. -/
def clauseHolds (vals : Valuation) (clause : Clause) : Bool := clause.any (litHolds vals)

/-- A formula together with literals assumed for this question only. The solver
forgets the latter with its answer. -/
structure Query where
  clauses : List Clause
  assumptions : List Int

/-- A model satisfies all clauses and all assumptions. This is a Boolean, so that
concrete formulas can be decided. -/
def models (vals : Valuation) (query : Query) : Bool :=
  query.clauses.all (clauseHolds vals) && query.assumptions.all (litHolds vals)

/-- The answer to a query: a result code and, for code 10, a valuation. With other
codes the valuation means nothing. -/
structure Answer where
  res : Int
  vals : Valuation

/-- Sound and complete: code 10 comes with a model, code 20 means that there is
none, and no other code occurs. Which model is given is left open. -/
def Correct (query : Query) (answer : Answer) : Prop :=
  (answer.res = 10 ∧ models answer.vals query = true) ∨
    (answer.res = 20 ∧ ∀ vals, models vals query = false)

/-- A clause as a statement about its literals, for proofs that argue about them one
by one. -/
theorem clauseHolds_iff {vals : Valuation} {clause : Clause} :
    clauseHolds vals clause = true ↔ ∃ lit ∈ clause, litHolds vals lit = true := by
  simp [clauseHolds]

/-- A model as a statement about all clauses and all assumptions. -/
theorem models_iff {vals : Valuation} {query : Query} :
    models vals query = true ↔
      (∀ clause ∈ query.clauses, clauseHolds vals clause = true) ∧
        ∀ lit ∈ query.assumptions, litHolds vals lit = true := by
  simp [models]

theorem litHolds_of_pos {lit : Int} (hPos : 0 < lit) (vals : Valuation) :
    litHolds vals lit = vals lit.natAbs := by simp [litHolds, hPos]

theorem litHolds_neg {lit : Int} (hNonzero : lit ≠ 0) (vals : Valuation) :
    litHolds vals (-lit) = !litHolds vals lit := by
  cases lt_or_gt_of_ne hNonzero with
  | inl hNeg => simp [litHolds, hNeg, hNeg.le.not_gt]
  | inr hPos => simp [litHolds, hPos, hPos.le]

/-- The variables a query mentions, each as often as it occurs in a clause or an
assumption. -/
def Query.variables (query : Query) : List Nat :=
  (query.clauses.flatten ++ query.assumptions).map Int.natAbs

theorem litHolds_congr {vals other : Valuation} {lit : Int}
    (h : vals lit.natAbs = other lit.natAbs) : litHolds vals lit = litHolds other lit := by
  simp [litHolds, h]

/-- Only the variables that occur decide whether a valuation is a model. This makes
a search through finitely many valuations complete. -/
theorem models_congr {vals other : Valuation} {query : Query}
    (h : ∀ x ∈ query.variables, vals x = other x) : models vals query = models other query := by
  have hLit : ∀ lit ∈ query.clauses.flatten ++ query.assumptions,
      litHolds vals lit = litHolds other lit := by
    intro lit hLit
    exact litHolds_congr (h _ (List.mem_map_of_mem hLit))
  have hClause : ∀ clause ∈ query.clauses, clauseHolds vals clause = clauseHolds other clause := by
    intro clause hClause
    rw [Bool.eq_iff_iff, clauseHolds_iff, clauseHolds_iff]
    refine exists_congr fun lit => and_congr_right fun hMem => ?_
    rw [hLit lit (List.mem_append_left _ (List.mem_flatten.mpr ⟨clause, hClause, hMem⟩))]
  rw [Bool.eq_iff_iff, models_iff, models_iff]
  refine and_congr (forall₂_congr fun clause hMem => by rw [hClause clause hMem])
    (forall₂_congr fun lit hMem => by rw [hLit lit (List.mem_append_right _ hMem)])

/-- The procedure that tries every set of occurring variables. It shows that correct
procedures exist, and runs can be evaluated with it. -/
def bruteForce (query : Query) : Answer :=
  match query.variables.dedup.sublists.find? (fun vars => models
    (fun x => decide (x ∈ vars)) query) with
  | some vars => ⟨10, fun x => decide (x ∈ vars)⟩
  | none => ⟨20, fun _ => false⟩

/-- Trying every set of occurring variables is sound and complete: any other
valuation agrees with one of those tried. -/
theorem bruteForce_correct (query : Query) : Correct query (bruteForce query) := by
  unfold bruteForce
  split
  · next vars hFound => exact Or.inl ⟨rfl, by simpa using List.find?_some hFound⟩
  · next hNone =>
      refine Or.inr ⟨rfl, fun vals => ?_⟩
      rw [List.find?_eq_none] at hNone
      have hTried := hNone (query.variables.dedup.filter fun x => vals x)
        (List.mem_sublists.mpr List.filter_sublist)
      have hSame : models vals query =
          models (fun x => decide (x ∈ query.variables.dedup.filter fun x => vals x)) query := by
        apply models_congr
        intro x hx
        simp [hx]
      rw [hSame]
      simpa using hTried

end Satisfiability
