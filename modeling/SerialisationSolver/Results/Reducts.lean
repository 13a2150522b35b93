import SerialisationSolver.Correctness.Setups
import SerialisationSolver.Correctness.Framework
import SerialisationSolver.Correctness.Picks

/-! What the bitsets look like along a run. The array is always the reduct; the
bitset agrees with it exactly at the calls whose set attacks active arguments
only. -/
namespace SerialisationSolver

open Interaction Interaction.Program Satisfiability Argumentation

/-- The array is the reduct in order, and the bits are those of the array. This is
what `get_reduct` is there for. -/
structure RepresentsReduct (af : AF) (active : IterableBitSet) (set : List Nat)
    (newActive : IterableBitSet) : Prop where
  nodup : newActive.array.Nodup
  array : newActive.array =
    active.array.filter fun a => a ∉ set ∧ ∀ s ∈ set, ¬ af.Attacks s a
  length : newActive.bitset.length = af.args
  bits : ∀ x < af.args, newActive.test x = true ↔ x ∈ newActive.array

/-- A single call of `get_reduct` is right exactly if the set attacks active
arguments only. Stale bits that were there before are gone in any case. -/
theorem representsReduct_getReduct_iff {af : AF} (h : af.WellFormed) {active : IterableBitSet}
    (hActive : active.Valid af) {set : List Nat} (hSet : ∀ a ∈ set, a ∈ active.array) :
    RepresentsReduct af active set (getReduct af active set) ↔
      ∀ s ∈ set, ∀ x, af.Attacks s x → x ∈ active.array := by
  have hValid := getReduct_valid h hActive hSet
  rw [← getReduct_exact_iff h hActive hSet]
  constructor
  · intro hRepresents x
    by_cases hx : x < af.args
    · exact hRepresents.bits x hx
    · refine iff_of_false (fun hTest => ?_) fun hMem => hx (hValid.lt_args x hMem)
      exact hx (Reached.lt_args ⟨hValid, getReduct_bitset_length hActive⟩ hTest)
  · intro hExact
    exact ⟨hValid.nodup, getReduct_array h hActive hSet, getReduct_bitset_length hActive,
      fun x _ => hExact x⟩

/-- Every recursive call of every enumerator goes to a reduct, whatever the solver
answers. -/
theorem Enumerator.start_recurses {af : AF} (h : af.WellFormed) (fuel : Nat)
    (enumerator : Enumerator) :
    Ensures (fun _ _ => True) (enumerator.start fuel af (.full af.args))
      (fun _ trace => RecursesIntoReducts af trace) := by
  have setup := enumerator.setup h
  rw [setup.start_eq]
  exact search_recurses h setup.draws fuel (full_valid af) []

/-- At every recursive call, in every run and whatever the solver answers, the
reduct is represented exactly if the set attacks active arguments only. -/
theorem recursion_representsReduct_iff {af : AF} (h : af.WellFormed) (enumerator : Enumerator)
    (fuel : Nat)
    {State : Type} (oracle : SatOracle State) (state : State) {active newActive : IterableBitSet}
    {set : List Nat} {newSequence : Sequence}
    (hCall : .event (.recurse active set newActive newSequence) ∈
      ((enumerator.start fuel af (.full af.args)).run oracle state).trace) :
    RepresentsReduct af active set newActive ↔
      ∀ s ∈ set, ∀ x, af.Attacks s x → x ∈ active.array := by
  have hAny : Admitted (fun _ _ => True) oracle := fun _ _ => trivial
  obtain ⟨hActive, hSet, rfl⟩ :=
    (enumerator.start_recurses h fuel).run hAny state active set newActive newSequence hCall
  exact representsReduct_getReduct_iff h hActive hSet

/-- The third call of a run: the bit of 2 is set in the state from which argument 3
is removed, and in the state after it the bits are right again. -/
theorem recursion_representsReduct_harmless :
    RepresentsReduct harmless ⟨[3, 4], [0, 0, 1, 1, 1]⟩ [3] ⟨[], [0, 0, 0, 0, 0]⟩ := by
  have hCall : .event (.recurse ⟨[3, 4], [0, 0, 1, 1, 1]⟩ [3]
    ⟨[], [0, 0, 0, 0, 0]⟩ [[0], [1], [3]]) ∈
      ((Enumerator.start (2 ^ 5) harmless (.full 5) (.strongAdmissible true)).run
        (fun (state : Unit) query => (bruteForce query, state)) ()).trace :=
    List.mem_cons_of_mem _ (List.mem_cons_of_mem _ List.mem_cons_self)
  apply (recursion_representsReduct_iff harmless_wellFormed _ _ _ () hCall).mpr
  have hTargets : ∀ x < 5, harmless.Attacks 3 x → x ∈ [3, 4] := by decide
  intro s hs x hx
  rw [List.mem_singleton.mp hs] at hx
  exact hTargets x (harmless_wellFormed.attacks_lt hx).2 hx

/-- Removing both attackers one after the other leaves the bit of the attacked
argument set. -/
theorem overlap_not_representsReduct : ∃ active set newActive newSequence,
    .event (.recurse active set newActive newSequence) ∈
      ((Enumerator.start (2 ^ 5) overlap (.full overlap.args) (.strongAdmissible true)).run
        (fun (state : Unit) query => (bruteForce query, state)) ()).trace ∧
    ¬ RepresentsReduct overlap active set newActive := by
  refine ⟨⟨[1, 3, 4], [0, 1, 0, 1, 1]⟩, [1], ⟨[3, 4], [0, 0, 1, 1, 1]⟩, [[0], [1]], ?_, ?_⟩
  · exact List.mem_cons_of_mem _ List.mem_cons_self
  · intro hRepresents
    have hMem := (hRepresents.bits 2 (by decide)).mp (by decide)
    exact absurd hMem (by decide)

end SerialisationSolver
