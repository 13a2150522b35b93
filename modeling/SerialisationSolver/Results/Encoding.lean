import SerialisationSolver.Correctness.Framework
import SerialisationSolver.Correctness.InitialSets

/-! The models of the encoding, on active sets whose bitset is exact. -/
namespace SerialisationSolver

open Interaction Satisfiability Argumentation

/-- Some assignment satisfies the clauses and accepts the given active arguments and
no other ones. What it says about other variables is left open. -/
def HasModel (af : AF) (active : IterableBitSet) (clauses : List Clause) (S : Set Nat) : Prop :=
  ∃ vals : Valuation, (∀ clause ∈ clauses, clauseHolds vals clause = true) ∧
    ∀ a ∈ active.array, litHolds vals (af.acceptedVar a) = true ↔ a ∈ S

section Models

variable {af : AF} {active : IterableBitSet} {S : Set Nat} (hActive : active.Valid af)
  (hFit : LiteralsFit af active)
include hActive hFit

/-- The set that a model accepts is determined by the literals of the active
arguments. -/
theorem setOf_acceptedBy {vals : Valuation} (hSub : S ⊆ active.actives)
    (hAccepts : ∀ a ∈ active.array, litHolds vals (af.acceptedVar a) = true ↔ a ∈ S) :
    setOf (acceptedBy active vals) = S := by
  ext a
  rw [mem_setOf, mem_acceptedBy]
  have hLit : ∀ ha : a ∈ active.array, litHolds vals (af.acceptedVar a) = vals (a + 1) := fun ha =>
    hFit.valid.holds_accepted (hActive.covers a ha) vals
  constructor
  · intro hBoth
    obtain ⟨ha, hAccepted⟩ := hBoth
    exact (hAccepts a ha).mp (by rw [hLit ha, hAccepted])
  · intro ha
    exact ⟨hSub ha, by rw [← hLit (hSub ha), (hAccepts a (hSub ha)).mpr ha]⟩

/-- What the encoding says in general: stale arguments included, whatever the bitset
says about inactive ones. -/
theorem hasModel_encoding_iff (h : af.WellFormed) (hSub : S ⊆ active.actives) :
    HasModel af active (encoding af active) S ↔
      S.Nonempty ∧ AdmissibleWith af.Attacks active.actives active.stales S := by
  constructor
  · intro hModel
    obtain ⟨vals, hHolds, hAccepts⟩ := hModel
    have hSound := encoding_sound hActive hFit.valid hHolds
    rwa [setOf_acceptedBy hActive hFit hSub hAccepts] at hSound
  · intro hBoth
    obtain ⟨hNonempty, hAdm⟩ := hBoth
    classical
    have hMembers : setOf (active.array.filter (· ∈ S)) = S := by
      ext a
      simpa using fun ha => hSub ha
    rw [← hMembers] at hNonempty hAdm
    refine ⟨_, encoding_complete hActive hFit h hNonempty hAdm, fun a ha => ?_⟩
    rw [hFit.valid.holds_accepted (hActive.covers a ha),
      acceptingValuation_accepted (hActive.lt_args a ha)]
    simp [ha]

end Models

/-- The clauses added to a new solver are satisfied by exactly the non-empty,
conflict-free sets that attack their active attackers. The statement is about what
the solver holds after both calls. -/
theorem encoding_exact {af : AF} (h : af.WellFormed) (hSmall : 2 * af.args < 2 ^ 31)
    {active : IterableBitSet} (hActive : active.Valid af) (hExact : active.Exact) :
    ∃ solver : CadicalSatSolver,
      (CadicalSatSolver.new (toInt32 af.args) >>= admissibleNonempty af active) = pure solver ∧
      ∀ S ⊆ active.actives, HasModel af active solver.clauses S ↔ S.Nonempty ∧
        ConflictFree af.Attacks S ∧
          ∀ a ∈ S, ∀ b ∈ active.array, af.Attacks b a → ∃ c ∈ S, af.Attacks c b := by
  have hFit : LiteralsFit af active := by
    intro x hx
    have hLess := hActive.lt_args x ((hExact x).mp hx)
    omega
  have hReady :
      (⟨Cadical.Solver.new, af.args, List.replicate af.args false⟩ : CadicalSatSolver).Ready :=
    ⟨by simp [Cadical.Solver.new], rfl⟩
  have hStales : active.stales = ∅ := by
    ext a
    simp [hExact a]
  refine ⟨_, by rw [new_eq (by omega), pure_bind,
    admissibleNonempty_eq hActive hFit.valid hReady], ?_⟩
  intro S hSub
  rw [CadicalSatSolver.clauses_withClauses]
  change HasModel af active (encoding af active) S ↔ _
  rw [hasModel_encoding_iff hActive hFit h hSub, hStales, admissibleWith_empty]
  apply and_congr_right
  intro _
  exact ⟨fun hAdm => ⟨hAdm.conflictFree, hAdm.defended⟩, fun hBoth => ⟨hSub, hBoth.1, hBoth.2⟩⟩

/-- Two arguments that attack each other, one of them twice, and one that attacks
itself. -/
def repeating : AF := ⟨3, [[1, 1], [0], [2]], [[1], [0, 0], [2]]⟩

theorem encoding_exact_repeating : ∃ solver : CadicalSatSolver,
    (CadicalSatSolver.new (toInt32 repeating.args) >>= admissibleNonempty repeating (.full 3)) =
      pure solver ∧
      HasModel repeating (.full 3) solver.clauses {0} ∧
      ¬ HasModel repeating (.full 3) solver.clauses {2} := by
  have hBuild : AF.build 3 [(1, 0), (1, 0), (0, 1), (2, 2)] = .ok repeating := by rfl
  have hWell := (AF.build_spec (by decide) hBuild).1
  obtain ⟨solver, hSolver, hModels⟩ :=
    encoding_exact hWell (by decide) (full_valid repeating) (full_test repeating.args)
  refine ⟨solver, hSolver, (hModels _ ?_).mpr ⟨Set.singleton_nonempty 0, ?_, ?_⟩, fun hModel => ?_⟩
  · rintro a rfl
    exact mem_full.mpr (by decide)
  · rintro a rfl b rfl
    decide
  · rintro a rfl b - hb
    obtain rfl : b = 1 := by simpa [AF.Attacks, AF.attackersOf, repeating] using hb
    exact ⟨0, rfl, by decide⟩
  · have hSub : ({2} : Set Nat) ⊆ (IterableBitSet.full repeating.args).actives := by
      rintro a rfl
      exact mem_full.mpr (by decide)
    exact ((hModels _ hSub).mp hModel).2.1 2 rfl 2 rfl (by decide)

end SerialisationSolver
