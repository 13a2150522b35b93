import SerialisationSolver.Correctness.Trim
import Mathlib.Order.Preorder.Finite

/-! How every call of `enumerate_initial` ends, whatever the bits of inactive
arguments are. Unless it stops before its loops, its record is a run of the machine
and what it returns is determined by the sets that are wanted. -/
namespace SerialisationSolver

open Interaction Interaction.Program Satisfiability

/-- The minimal wanted sets are returned, unless a model has to be read whose last
variable is the largest `int`. Which of the two happens does not depend on the
solver. -/
def Determined (af : AF) (active : IterableBitSet) : Except Fault (List (List Nat)) → Prop
  | .ok result => Enumerates af active result ∧
      ¬ (af.args + 1 = 2 ^ 31 ∧ ∃ S, ModelSearch.Wanted af active S)
  | .error fault => fault = .overflow ∧ af.args + 1 = 2 ^ 31 ∧ ∃ S, ModelSearch.Wanted af active S

section

variable {af : AF} {active : IterableBitSet}

/-- Below every wanted set there is a minimal one, since only finitely many sets are
wanted. -/
theorem ModelSearch.Wanted.exists_minimal {S : Set Nat} (hS : ModelSearch.Wanted af active S) :
    ∃ T ≤ S, Minimal (ModelSearch.Wanted af active) T :=
  (ModelSearch.wanted_finite af active).exists_le_minimal hS

/-- A model is found along a run only if some set is wanted, as the model accepts
one. -/
theorem exists_wanted_of_cost (hActive : active.Valid af) (hValid : LiteralsValid af active)
    {st : ModelSearch} {trace : Trace} (hRuns : Runs (ModelSearch.Step af active) .start trace st)
    (hCost : 0 < (trace.map ModelSearch.cost).sum) : ∃ S, ModelSearch.Wanted af active S := by
  have hBlocked := ModelSearch.blocked_length hRuns
  obtain ⟨set, hSet⟩ := List.exists_mem_of_length_pos (l := st.blocked) (by omega)
  have hInv := ModelSearch.invariant_of_runs hActive hValid hRuns
  exact ⟨setOf set, hInv.blocking.sound _ (List.mem_map_of_mem hSet)⟩

/-- From a run of the machine with enough fuel to the outcome: whether the fault or
the result comes out is decided by the wanted sets. -/
theorem determined_of_runs (hActive : active.Valid af) (hValid : LiteralsValid af active)
    {fuel : Nat}
    (hFuel : 2 ^ active.array.length ≤ fuel) {out : Except Fault (List (List Nat))}
    {st : ModelSearch} {trace : Trace} (hRuns : Runs (ModelSearch.Step af active) .start trace st)
    (hOut : match out with
      | .ok result => Enumerates af active result ∧ result = st.reported ∧
          (af.args + 1 = 2 ^ 31 → (trace.map ModelSearch.cost).sum = 0)
      | .error fault => Stops af fuel fault trace) : Determined af active out := by
  cases out with
  | error fault =>
      have hCost := ModelSearch.cost_lt hActive hValid hRuns
      rcases hOut with ⟨-, hSpent⟩ | ⟨rfl, hLast, hFound⟩
      · omega
      · exact ⟨rfl, hLast, exists_wanted_of_cost hActive hValid hRuns hFound⟩
  | ok result =>
      obtain ⟨hEnumerates, rfl, hZero⟩ := hOut
      refine ⟨hEnumerates, ?_⟩
      rintro ⟨hLast, S, hS⟩
      -- A minimal set below would have been reported without being found.
      obtain ⟨T, -, hT⟩ := hS.exists_minimal
      have hBlocked := ModelSearch.blocked_length hRuns
      rw [hZero hLast] at hBlocked
      have hNone : st.blocked = [] := List.eq_nil_of_length_eq_zero hBlocked
      have hInv := ModelSearch.invariant_of_runs hActive hValid hRuns
      have hIn := hInv.blocking.reported_blocked T ((hEnumerates.mem_iff T).mpr hT)
      simp [ModelSearch.blocking, hNone] at hIn

variable (h : af.WellFormed) (hActive : active.Valid af)
include h hActive

theorem enumerates_trim (result : List (List Nat)) :
    Enumerates af (active.trim af) result ↔ Enumerates af active result := by
  constructor
  · intro hResult
    exact ⟨hResult.sublist, hResult.nodup, wanted_trim h hActive ▸ hResult.mem_iff⟩
  · intro hResult
    exact ⟨hResult.sublist, hResult.nodup, wanted_trim h hActive ▸ hResult.mem_iff⟩

theorem determined_trim (out : Except Fault (List (List Nat))) :
    Determined af (active.trim af) out ↔ Determined af active out := by
  cases out with
  | error fault => rw [Determined, Determined, wanted_trim h hActive]
  | ok result => rw [Determined, Determined, wanted_trim h hActive, enumerates_trim h hActive]

/-- Every set that a model accepts is a non-empty set of active arguments, due to
the last clause of the encoding. -/
theorem wanted_nonempty (hValid : LiteralsValid af (active.trim af)) {S : Set Nat}
    (hS : ModelSearch.Wanted af active S) : S.Nonempty := by
  rw [← wanted_trim h hActive] at hS
  exact (hS.sound (trim_valid hActive) hValid).1

/-- Where the literals are valid, a call is a run of the machine, and with enough
fuel its outcome is determined. Only the bits that are looked at have to be of this
kind. -/
theorem enumerateInitial_runs (hArgs : active.array ≠ [] → af.args < 2 ^ 31)
    (hValid : LiteralsValid af (active.trim af)) (fuel : Nat) :
    Ensures Correct (enumerateInitial fuel af active) (fun out trace =>
      (∃ st, Runs (ModelSearch.Step af (active.trim af)) .start trace st) ∧
        (2 ^ active.array.length ≤ fuel → Determined af active out) ∧
        ∀ result, out = .ok result → Enumerates af active result) := by
  have hTrim := trim_valid hActive
  rw [← enumerateInitial_trim h hActive]
  apply (enumerateInitial_ensures hTrim hValid hArgs fuel).mono
  intro out trace hRun
  obtain ⟨st, hRuns, hOut⟩ := hRun
  refine ⟨⟨st, hRuns⟩, fun hFuel => ?_, ?_⟩
  · exact (determined_trim h hActive out).mp (determined_of_runs hTrim hValid hFuel hRuns hOut)
  · rintro result rfl
    exact (enumerates_trim h hActive result).mp hOut.1

end

end SerialisationSolver
