import SerialisationSolver.Correctness.SharedVariables
import SerialisationSolver.Correctness.InitialSets
import SerialisationSolver.Correctness.Framework

/-! `enumerate_initial` is exact as long as no initial set is lost to a variable
that leaves the range of `int`. -/
namespace SerialisationSolver

open Interaction Interaction.Program Satisfiability Argumentation

/-- A clause that no initial set violates, except for the one it was built from. It
is the clause of a non-empty admissible set. -/
def BlocksNoOther (af : AF) (active : IterableBitSet) (clause : Clause) : Prop :=
  ∃ set, clause = minimizationClause af set ∧ (setOf set).Nonempty ∧
    Admissible af.Attacks active.actives (setOf set) ∧
    ∀ vals, IsInitial af.Attacks active.actives (setOf (acceptedBy active vals)) →
      setOf (acceptedBy active vals) ≠ setOf set → clauseHolds vals clause = true

/-- Against every correct solver the call ends with the initial sets, each of them
once, and no clause added on the way blocks another initial set. -/
def EnumeratesInitialSets (af : AF) (active : IterableBitSet) : Prop :=
  ∀ (State : Type) (oracle : SatOracle State) (state : State) (fuel : Nat),
    Admitted Correct oracle → 2 ^ active.array.length ≤ fuel →
    ∃ result, ((enumerateInitial fuel af active).run oracle state).result = .ok result ∧
      (result.map setOf).Nodup ∧
      (∀ S, S ∈ result.map setOf ↔ IsInitial af.Attacks active.actives S) ∧
      ∀ query answer,
        .asked query answer ∈ ((enumerateInitial fuel af active).run oracle state).trace →
        ∀ clause ∈ query.clauses, clause ∈ encoding af active ∨ BlocksNoOther af active clause

section

variable {af : AF} {active : IterableBitSet} (hActive : active.Valid af) (hExact : active.Exact)
include hExact

theorem stales_eq_empty : active.stales = ∅ := by
  ext a
  simp [hExact a]

include hActive

theorem wanted_sound (hValid : LiteralsValid af active) {S : Set Nat}
    (hS : ModelSearch.Wanted af active S) : S.Nonempty ∧
      Admissible af.Attacks active.actives S := by
  have hBoth := hS.sound hActive hValid
  rwa [stales_eq_empty hExact, admissibleWith_empty] at hBoth

/-- The clauses of every question asked along a run: those of the encoding, and
those of sets that were found before. -/
theorem query_clauses (hValid : LiteralsValid af active) {st : ModelSearch} {trace : Trace}
    (hRuns : Runs (ModelSearch.Step af active) .start trace st) {query : Query} {answer : Answer}
    (hAsked : .asked query answer ∈ trace) :
    ∀ clause ∈ query.clauses, clause ∈ encoding af active ∨ BlocksNoOther af active clause := by
  obtain ⟨before, after, hInv, hStep⟩ := hRuns.labels_from
    (fun _ label st' hInv hStep => hInv.step hActive hValid label st' hStep)
    (ModelSearch.invariant_start af active) _ hAsked
  obtain rfl : query = before.query af active := by cases hStep <;> rfl
  intro clause hClause
  cases List.mem_append.mp hClause with
  | inl hEncoding => exact Or.inl hEncoding
  | inr hBlocked =>
      obtain ⟨set, hSet, rfl⟩ := List.mem_map.mp hBlocked
      have hSub : ∀ a ∈ set, a ∈ active.array :=
        fun a ha => (hInv.blocked_sublist set hSet).subset ha
      obtain ⟨hNonempty, hAdm⟩ :=
        wanted_sound hActive hExact hValid (hInv.blocking.sound _ (List.mem_map_of_mem hSet))
      refine Or.inr ⟨set, rfl, hNonempty, hAdm, fun vals hInitial hNe => ?_⟩
      rw [minimizationClause_holds hActive hValid hSub]
      exact fun hLe => hNe (hInitial.eq_of_le ⟨hNonempty, hAdm⟩ hLe).symm

/-- Every set that some model accepts lies above an initial set, as it is admissible
while the bits are exact. -/
theorem Wanted.exists_isInitial (hValid : LiteralsValid af active) {S : Set Nat}
    (hS : ModelSearch.Wanted af active S) : ∃ T ≤ S, IsInitial af.Attacks active.actives T := by
  obtain ⟨hNonempty, hAdm⟩ := wanted_sound hActive hExact hValid hS
  obtain ⟨T, hTS, hT⟩ := exists_isInitialWith (G := ∅) active.actives_finite hNonempty hAdm.with
  exact ⟨T, hTS, isInitialWith_empty.mp hT⟩

/-- If models accept all initial sets, these are the minimal sets they accept. What
else is accepted lies above one of them. -/
theorem minimal_wanted_iff_isInitial (hValid : LiteralsValid af active)
    (hAccepted : ∀ S, IsInitial af.Attacks active.actives S → ModelSearch.Wanted af active S)
    (S : Set Nat) :
    Minimal (ModelSearch.Wanted af active) S ↔ IsInitial af.Attacks active.actives S := by
  constructor
  · intro hS
    obtain ⟨T, hTS, hT⟩ := Wanted.exists_isInitial hActive hExact hValid hS.prop
    exact hS.eq_of_le (hAccepted T hT) hTS ▸ hT
  · intro hS
    exact ⟨hAccepted S hS, fun T hT hTS => hS.2 (wanted_sound hActive hExact hValid hT) hTS⟩

omit hExact in
/-- What is returned was accepted by a model, and a model was read to its end, so
that the counter of that loop was in range. -/
theorem accepted_of_enumeratesInitialSets (hValid : LiteralsValid af active)
    (hArgs : active.array ≠ [] → af.args < 2 ^ 31) (hAll : EnumeratesInitialSets af active)
    {S : Set Nat} (hS : IsInitial af.Attacks active.actives S) :
    af.args + 1 ≠ 2 ^ 31 ∧ ModelSearch.Wanted af active S := by
  have hAdmitted : Admitted Correct (fun (state : Unit) query => (bruteForce query, state)) :=
    fun _ query => bruteForce_correct query
  obtain ⟨result, hResult, -, hExactly, -⟩ :=
    hAll Unit (fun state query => (bruteForce query, state)) () _ hAdmitted le_rfl
  obtain ⟨st, hRuns, hOut⟩ :=
    (enumerateInitial_ensures hActive hValid hArgs (2 ^ active.array.length)).run hAdmitted ()
  rw [hResult] at hOut
  obtain ⟨hEnumerates, rfl, hZero⟩ := hOut
  have hMem := (hExactly S).mpr hS
  refine ⟨fun hLast => ?_, ((hEnumerates.mem_iff S).mp hMem).prop⟩
  -- Without a model nothing is blocked, and all that is reported is blocked.
  have hBlocked := ModelSearch.blocked_length hRuns
  rw [hZero hLast] at hBlocked
  have hNone : st.blocked = [] := List.eq_nil_of_length_eq_zero hBlocked
  have hInv := ModelSearch.invariant_of_runs hActive hValid hRuns
  have hIn := hInv.blocking.reported_blocked S hMem
  simp [ModelSearch.blocking, hNone] at hIn

/-- While all literals are valid, exactness is a matter of which initial sets are
accepted by a model, and of the last loop counter. -/
theorem enumeratesInitialSets_iff_of_valid (hValid : LiteralsValid af active)
    (hArgs : active.array ≠ [] → af.args < 2 ^ 31) :
    EnumeratesInitialSets af active ↔ ∀ S, IsInitial af.Attacks active.actives S →
      af.args + 1 ≠ 2 ^ 31 ∧ ModelSearch.Wanted af active S := by
  constructor
  · exact fun hAll S hS => accepted_of_enumeratesInitialSets hActive hValid hArgs hAll hS
  · intro hAccepted State oracle state fuel hOracle hFuel
    obtain ⟨st, hRuns, hOut⟩ :=
      (enumerateInitial_ensures hActive hValid hArgs fuel).run hOracle state
    cases hResult : ((enumerateInitial fuel af active).run oracle state).result with
    | error fault =>
        rw [hResult] at hOut
        rcases hOut with ⟨-, hSpent⟩ | ⟨-, hLast, hFound⟩
        · have hCost := ModelSearch.cost_lt hActive hValid hRuns
          omega
        · -- The first model found lies above an initial set.
          have hBlocked := ModelSearch.blocked_length hRuns
          obtain ⟨set, hSet⟩ := List.exists_mem_of_length_pos (l := st.blocked) (by omega)
          have hInv := ModelSearch.invariant_of_runs hActive hValid hRuns
          have hWanted := hInv.blocking.sound _ (List.mem_map_of_mem hSet)
          obtain ⟨T, -, hT⟩ := Wanted.exists_isInitial hActive hExact hValid hWanted
          exact absurd hLast (hAccepted T hT).1
    | ok result =>
        rw [hResult] at hOut
        refine ⟨result, rfl, hOut.1.nodup, fun S => ?_, fun query answer hAsked => ?_⟩
        · rw [hOut.1.mem_iff]
          exact minimal_wanted_iff_isInitial hActive hExact hValid
            (fun T hT => (hAccepted T hT).2) S
        · exact query_clauses hActive hExact hValid hRuns hAsked

end

/-- A call that fails enumerates nothing, not even the empty family. -/
theorem not_enumeratesInitialSets {af : AF} {active : IterableBitSet}
    (hFails : ∃ fault, ∀ fuel, enumerateInitial fuel af active = .fail fault) :
    ¬ EnumeratesInitialSets af active := by
  intro hAll
  obtain ⟨result, hResult, -⟩ := hAll Unit (fun state query => (bruteForce query, state)) () _
    (fun _ query => bruteForce_correct query) le_rfl
  obtain ⟨fault, hFault⟩ := hFails
  rw [hFault] at hResult
  simp [Program.run] at hResult

/-- Exactly when `enumerate_initial` is exact. From `2 ^ 30` arguments on this
depends on the active ones: no variable of theirs may be `2 ^ 31`, and no initial
set may need two uses of one variable. -/
theorem enumeratesInitialSets_iff {af : AF} (h : af.WellFormed) {active : IterableBitSet}
    (hActive : active.Valid af) (hExact : active.Exact) :
    EnumeratesInitialSets af active ↔ active.array = [] ∨
      (af.args < 2 ^ 31 ∧ (∀ a ∈ active.array, af.args + a + 1 ≠ 2 ^ 31) ∧
        ∀ S, IsInitial af.Attacks active.actives S →
          af.args + 1 ≠ 2 ^ 31 ∧ ¬ Clash af active S) := by
  by_cases hEmpty : active.array = []
  · have hNoTest : ∀ x, active.test x = true → False := fun x hx => by
      simpa [hEmpty] using (hExact x).mp hx
    have hAll := (enumeratesInitialSets_iff_of_valid hActive hExact
      (fun x hx => (hNoTest x hx).elim) (absurd hEmpty)).mpr
    simp only [hEmpty, true_or, iff_true]
    apply hAll
    intro S hS
    obtain ⟨a, ha⟩ := hS.1.1
    simpa [hEmpty] using hS.admissible.subset ha
  · rw [or_iff_right hEmpty]
    by_cases hLarge : 2 ^ 31 ≤ af.args ∨ ∃ a ∈ active.array, a < af.args ∧ af.args + a + 1 = 2 ^ 31
    · apply iff_of_false (not_enumeratesInitialSets
        (enumerateInitial_fails hEmpty h.args_lt hLarge))
      intro hBounds
      obtain ⟨hArgs, hNe, -⟩ := hBounds
      rcases hLarge with hLarge | ⟨a, ha, -, hVar⟩
      · omega
      · exact hNe a ha hVar
    · push Not at hLarge
      obtain ⟨hArgs, hNe⟩ := hLarge
      have hNe' : ∀ a ∈ active.array, af.args + a + 1 ≠ 2 ^ 31 :=
        fun a ha => hNe a ha (hActive.lt_args a ha)
      rw [enumeratesInitialSets_iff_of_valid hActive hExact
        (literalsValid_of_ne hActive hArgs hExact hNe') (fun _ => hArgs)]
      have hClash := fun S (hS : IsInitial af.Attacks active.actives S) =>
        wanted_iff_not_clash hActive hExact hArgs hNe' hS.1.1 hS.admissible
      constructor
      · exact fun hAll => ⟨hArgs, hNe', fun S hS => (hAll S hS).imp_right (hClash S hS).mp⟩
      · exact fun hAll S hS => (hAll.2.2 S hS).imp_right (hClash S hS).mpr

/-- Two arguments that attack each other are enumerated, each as a set of its own. -/
theorem enumeratesInitialSets_mutual :
    EnumeratesInitialSets ⟨2, [[1], [0]], [[1], [0]]⟩ (.full 2) := by
  have hBuild : AF.build 2 [(0, 1), (1, 0)] = .ok ⟨2, [[1], [0]], [[1], [0]]⟩ := by rfl
  have hWell := (AF.build_spec (by decide) hBuild).1
  refine (enumeratesInitialSets_iff hWell (full_valid _) (full_test 2)).mpr (Or.inr ⟨?_, ?_, ?_⟩)
  · decide
  · decide
  · intro S _
    refine ⟨by decide, ?_⟩
    intro hClash
    obtain ⟨a, ha, hHigh, -⟩ := hClash
    have hLess : a < 2 := mem_full.mp ha
    have hSmall : 2 ^ 31 < 2 + a + 1 := hHigh
    omega

/-- With `2 ^ 30` arguments some variable is `2 ^ 31`, and nothing is enumerated. -/
theorem not_enumeratesInitialSets_large :
    ¬ EnumeratesInitialSets (AF.empty.setArguments (2 ^ 30)) (.full (2 ^ 30)) := by
  have hArgs : (AF.empty.setArguments (2 ^ 30)).args = 2 ^ 30 := rfl
  have hMem : ∀ a, a < 2 ^ 30 → a ∈ (IterableBitSet.full (2 ^ 30)).array := fun a => mem_full.mpr
  refine not_enumeratesInitialSets
    (enumerateInitial_fails ?_ ?_ (Or.inr ⟨2 ^ 30 - 1, hMem _ ?_, ?_, ?_⟩))
  · exact List.ne_nil_of_mem (hMem 0 (by omega))
  · omega
  · omega
  · omega
  · rw [hArgs]
    rfl

end SerialisationSolver
