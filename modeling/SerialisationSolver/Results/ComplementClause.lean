import SerialisationSolver.Correctness.ComplementClause
import SerialisationSolver.Correctness.Outcome
import SerialisationSolver.Correctness.Picks

/-! The complement clause that is commented out would change nothing: when a set
is pushed, the clause is there already. -/
namespace SerialisationSolver

open Interaction Interaction.Program Satisfiability

/-- Whenever a set is pushed, the last question had no model, and the clause that
excludes exactly this set was among its clauses. -/
def PushesExcluded (af : AF) (trace : Trace) : Prop :=
  ∀ before set later, trace = before ++ .event (.push set) :: later →
    ∃ earlier query answer, before = earlier ++ [.asked query answer] ∧ answer.res = 20 ∧
      minimizationClause af set ∈ query.clauses

/-- No set equals or contains another one, at whichever places of the result they
stand. -/
def Antichain (result : List (List Nat)) : Prop :=
  result.Pairwise fun set other => ¬ setOf set ⊆ setOf other ∧ ¬ setOf other ⊆ setOf set

/-- The same sets in some order, or the same fault. One call that returns and one
that fails are not the same. -/
def SameFamily : Except Fault (List (List Nat)) → Except Fault (List (List Nat)) → Prop
  | .ok result, .ok result' => result.Perm result'
  | .error fault, .error fault' => fault = fault'
  | _, _ => False

section Machine

variable {af : AF} {active : IterableBitSet} {st st' : ModelSearch} {trace : Trace}

/-- The current set is a set that is blocked, as it was blocked when it was found. -/
def CurrentBlocked (st : ModelSearch) : Prop := ∀ set, st.current = some set → set ∈ st.blocked

theorem CurrentBlocked.step {label : Entry Query Answer Event} (h : CurrentBlocked st)
    (hStep : ModelSearch.Step af active st label st') : CurrentBlocked st' := by
  cases hStep with
  | found hStuck hRes hModel =>
      rintro set ⟨⟩
      exact List.mem_append_right _ (List.mem_singleton.mpr rfl)
  | stuck hStuck hRes hNone => exact h
  | push hStuck hCurrent => rintro set ⟨⟩

theorem currentBlocked_of_runs (hRuns : Runs (ModelSearch.Step af active) .start trace st) :
    CurrentBlocked st := by
  apply hRuns.preserves fun _ _ _ h hStep => CurrentBlocked.step h hStep
  rintro set ⟨⟩

/-- Only an answer without a model leaves the machine stuck, so that this was the
last thing on the record. -/
theorem last_of_stuck (hRuns : Runs (ModelSearch.Step af active) st trace st')
    (hStart : st.stuck = false)
    (hStuck : st'.stuck = true) : ∃ earlier query answer, trace = earlier ++ [.asked query answer] ∧
      answer.res = 20 ∧ query = st'.query af active := by
  rcases List.eq_nil_or_concat trace with rfl | ⟨earlier, label, rfl⟩
  · cases hRuns
    simp [hStart] at hStuck
  · rw [List.concat_eq_append] at hRuns
    obtain ⟨here, next, -, hStep, hEnd⟩ := hRuns.split_cons
    cases hEnd
    cases hStep with
    | found hHere hRes hModel => simp [ModelSearch.found, hHere] at hStuck
    | @stuck answer hHere hRes hNone =>
        exact ⟨earlier, _, answer, List.concat_eq_append, hRes, rfl⟩
    | push hHere hCurrent => simp [ModelSearch.report] at hStuck

/-- A push comes from a stuck machine, whose last question already had the clause of
the current set. -/
theorem pushesExcluded_of_runs (hRuns : Runs (ModelSearch.Step af active) .start trace st) :
    PushesExcluded af trace := by
  rintro before set later rfl
  obtain ⟨here, next, hBefore, hStep, -⟩ := hRuns.split_cons
  cases hStep with
  | push hStuck hCurrent =>
      obtain ⟨earlier, query, answer, rfl, hRes, rfl⟩ := last_of_stuck hBefore rfl hStuck
      refine ⟨earlier, _, answer, rfl, hRes, ?_⟩
      exact List.mem_append_right _ (List.mem_map_of_mem
        (currentBlocked_of_runs hBefore set hCurrent))

end Machine

section Families

variable {af : AF} {active : IterableBitSet} {result result' : List (List Nat)}

/-- The minimal sets are incomparable, and none of them is given twice. -/
theorem Enumerates.antichain (hResult : Enumerates af active result) : Antichain result := by
  have hMinimal : ∀ set ∈ result, Minimal (ModelSearch.Wanted af active) (setOf set) :=
    fun set hSet =>
    (hResult.mem_iff _).mp (List.mem_map_of_mem hSet)
  apply (List.pairwise_map.mp hResult.nodup).imp_of_mem
  intro set other hSet hOther hNe
  refine ⟨fun hSub => hNe ?_, fun hSub => hNe ?_⟩
  · exact (hMinimal other hOther).eq_of_subset (hMinimal set hSet).prop hSub
  · exact (hMinimal set hSet).eq_of_superset (hMinimal other hOther).prop hSub

theorem Enumerates.subset (hActive : active.Valid af) (hResult : Enumerates af active result)
    (hResult' : Enumerates af active result') : ∀ set ∈ result, set ∈ result' := by
  intro set hSet
  have hMinimal := (hResult.mem_iff _).mp (List.mem_map_of_mem hSet)
  obtain ⟨set', hSet', hSame⟩ := List.mem_map.mp ((hResult'.mem_iff _).mpr hMinimal)
  exact setOf_injOn hActive.nodup (hResult'.sublist set' hSet')
    (hResult.sublist set hSet) hSame ▸ hSet'

/-- The family is determined up to its order, since its members are. -/
theorem Enumerates.perm (hActive : active.Valid af) (hResult : Enumerates af active result)
    (hResult' : Enumerates af active result') : result.Perm result' := by
  refine (List.perm_ext_iff_of_nodup hResult.nodup.of_map hResult'.nodup.of_map).mpr fun set => ?_
  exact ⟨hResult.subset hActive hResult' set, hResult'.subset hActive hResult set⟩

/-- Two calls whose outcomes are determined end alike, whichever solvers they asked. -/
theorem Determined.sameFamily (hActive : active.Valid af)
    {out out' : Except Fault (List (List Nat))}
    (hOut : Determined af active out) (hOut' : Determined af active out') :
    SameFamily out out' := by
  cases out with
  | error fault =>
      cases out' with
      | error fault' => exact hOut.1.trans hOut'.1.symm
      | ok result' => exact hOut'.2 hOut.2
  | ok result =>
      cases out' with
      | error fault' => exact hOut.2 hOut'.2
      | ok result' => exact hOut.1.perm hActive hOut'.1

end Families

/-- Whenever a set is pushed its clause is there already, so that adding the clause
again changes no family of sets, and no set of a family contains another one. The
two calls may have different solvers. -/
theorem complementClause_redundant {af : AF} (h : af.WellFormed) {active : IterableBitSet}
    (hActive : active.Valid af) {State State' : Type} {oracle : SatOracle State}
    {oracle' : SatOracle State'}
    (hOracle : Admitted Correct oracle) (hOracle' : Admitted Correct oracle') (state : State)
    (state' : State') {fuel fuel' : Nat} (hFuel : 2 ^ active.array.length ≤ fuel)
    (hFuel' : 2 ^ active.array.length ≤ fuel') :
    PushesExcluded af ((enumerateInitial fuel af active).run oracle state).trace ∧
      SameFamily ((enumerateInitial fuel af active).run oracle state).result
        ((enumerateInitialComplement fuel' af active).run oracle' state').result ∧
      (∀ result, ((enumerateInitial fuel af active).run oracle state).result = .ok result →
        Antichain result) ∧
      ∀ result, ((enumerateInitialComplement fuel' af active).run oracle' state').result =
        .ok result →
        Antichain result := by
  rcases enumerateInitial_cases h hActive with ⟨-, fault, -, hFails⟩ | ⟨hArgs, hValid⟩
  · rw [(hFails fuel).1, (hFails fuel').2]
    exact ⟨by simp [PushesExcluded, run], rfl, by simp [run], by simp [run]⟩
  · obtain ⟨⟨st, hRuns⟩, hDetermined, hEnumerates⟩ :=
      (enumerateInitial_runs h hActive hArgs hValid fuel).run hOracle state
    have hVariant : Ensures Correct (enumerateInitialComplement fuel' af active)
        (fun out _ => Determined af active out) := by
      apply (enumerateInitial_lockstep h hActive fuel').ensures
      · exact fun _ _ _ hSame hAnswer => hSame.correct hAnswer
      · exact (enumerateInitial_runs h hActive hArgs hValid fuel').mono fun _ _ hPost =>
          hPost.2.1 hFuel'
    have hDetermined' := hVariant.run hOracle' state'
    refine ⟨pushesExcluded_of_runs hRuns, (hDetermined hFuel).sameFamily hActive hDetermined', ?_,
      ?_⟩
    · exact fun result hResult => (hEnumerates result hResult).antichain
    · intro result hResult
      rw [hResult] at hDetermined'
      exact hDetermined'.1.antichain

theorem complementClause_redundant_overlap :
    SameFamily ((enumerateInitial 4 overlap overlapRest).run
        (fun (state : Unit) query => (bruteForce query, state)) ()).result
      ((enumerateInitialComplement 4 overlap overlapRest).run
        (fun (state : Unit) query => (bruteForce query, state)) ()).result := by
  have hOracle : Admitted Correct (fun (state : Unit) query => (bruteForce query, state)) :=
    fun _ query => bruteForce_correct query
  have hFuel : 2 ^ overlapRest.array.length ≤ 4 := by decide
  exact (complementClause_redundant overlap_wellFormed overlapRest_valid hOracle hOracle () ()
    hFuel hFuel).2.1

end SerialisationSolver
