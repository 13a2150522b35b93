import SerialisationSolver.Correctness.Answers
import SerialisationSolver.Correctness.Framework
import SerialisationSolver.Argumentation.Renaming
import Mathlib.Logic.Equiv.Fintype

/-! Frameworks built from the same attacks, in another order, with repetitions and
under other names. -/
namespace SerialisationSolver

open Argumentation

/-- The same enumerator; a query argument is renamed with the arguments. -/
def Enumerator.rename (σ : Nat → Nat) : Enumerator → Enumerator
  | .admissible preferred => .admissible preferred
  | .complete => .complete
  | .strongAdmissible grounded => .strongAdmissible grounded
  | .stable => .stable
  | .unchallenged maximal => .unchallenged maximal
  | .argumentAdmissible argument => .argumentAdmissible (σ argument)

section Frameworks

variable {af af' : AF} (σ : af.Attacks ≃r af'.Attacks)
  (hArguments : Set.preimage σ af'.arguments = af.arguments)
include hArguments

theorem comap_full : Frame.comap σ ⟨af'.arguments, ∅⟩ = ⟨af.arguments, ∅⟩ := by
  rw [Frame.comap, hArguments, Set.preimage_empty]

/-- What the tree of a renamed framework reports, pulled back. Each tree has its own
lemma, and this one puts them together. -/
theorem mem_reported_rename (enumerator : Enumerator) (ls : List (Set Nat)) :
    ls ∈ (enumerator.rename σ).reported af' ↔ ls.map (Set.preimage σ) ∈ enumerator.reported af := by
  have hStart := comap_full σ hArguments
  cases enumerator with rw [Enumerator.rename, Enumerator.reported, Enumerator.reported, ← hStart]
  | admissible preferred =>
      apply mem_reported_staleTree_comap σ
      exact fun F => imp_congr_right fun _ => (Frame.exhausted_comap σ).symm
  | complete =>
      apply mem_reported_staleTree_comap σ
      exact fun F => (Frame.attacked_comap σ).symm
  | strongAdmissible grounded => exact mem_reported_unattackedTree_comap σ
  | stable =>
      apply mem_reported_staleTree_comap σ
      exact fun F => (Frame.comap_active_eq_empty σ).symm
  | unchallenged maximal => exact mem_reported_unchallengedTree_comap σ
  | argumentAdmissible argument => exact mem_reported_acceptanceTree_comap σ

omit hArguments in
theorem fits_rename (hArgs : af'.args = af.args) (enumerator : Enumerator) :
    (enumerator.rename σ).Fits af' ↔ enumerator.Fits af := by
  cases enumerator <;> simp only [Enumerator.rename, Enumerator.Fits, hArgs]

/-- What the runs print, renamed. Both print nothing if the variables do not fit, as
the number of arguments is the same. -/
theorem printedSets_rename (h : af.WellFormed) (h' : af'.WellFormed) (hArgs : af'.args = af.args)
    {enumerator : Enumerator} (run : CorrectRun af enumerator)
    (run' : CorrectRun af' (enumerator.rename σ)) :
    printedSets run'.trace = List.map (Set.image σ) '' printedSets run.trace := by
  have hBack : ∀ ls : List (Set Nat), (ls.map (Set.preimage σ)).map (Set.image σ) = ls :=
    fun ls => by
    simp [Function.comp_def, Set.image_preimage_eq _ σ.surjective]
  have hForth : ∀ ls : List (Set Nat), (ls.map (Set.image σ)).map (Set.preimage σ) = ls :=
    fun ls => by
    simp [Function.comp_def, Set.preimage_image_eq _ σ.injective]
  rw [run.printedSets_eq h, run'.printedSets_eq h']
  ext ls
  simp only [Set.mem_ofPred_eq, Set.mem_image, fits_rename σ hArgs,
    mem_reported_rename σ hArguments]
  constructor
  · intro hReported
    exact ⟨ls.map (Set.preimage σ), hReported, hBack ls⟩
  · intro hImage
    obtain ⟨ls, hReported, rfl⟩ := hImage
    rwa [hForth]

end Frameworks

section Build

variable {n : Nat}

/-- A permutation of the arguments, with all other numbers left alone. -/
def renamed (π : Equiv.Perm (Fin n)) : Equiv.Perm Nat := π.extendDomain Fin.equivSubtype

theorem renamed_fin (π : Equiv.Perm (Fin n)) (a : Fin n) : renamed π a = (π a : Nat) :=
  π.extendDomain_apply_image Fin.equivSubtype a

theorem renamed_lt_iff (π : Equiv.Perm (Fin n)) (a : Nat) : renamed π a < n ↔ a < n := by
  by_cases ha : a < n
  · exact iff_of_true (renamed_fin π ⟨a, ha⟩ ▸ (π ⟨a, ha⟩).isLt) ha
  · rw [renamed, π.extendDomain_apply_not_subtype Fin.equivSubtype ha]

/-- Attacks between arguments, as they are given to `add_attack`. -/
def numbers (attacks : List (Fin n × Fin n)) : List (Nat × Nat) :=
  attacks.map fun attack => (attack.1.val, attack.2.val)

theorem numbers_lt (attacks : List (Fin n × Fin n)) :
    ∀ attack ∈ numbers attacks, attack.1 < n ∧ attack.2 < n := by
  intro attack hAttack
  obtain ⟨attack, -, rfl⟩ := List.mem_map.mp hAttack
  exact ⟨attack.1.isLt, attack.2.isLt⟩

theorem mem_numbers_map {attacks : List (Fin n × Fin n)} (π : Equiv.Perm (Fin n)) (a b : Nat) :
    (renamed π a, renamed π b) ∈ numbers (attacks.map (Prod.map π π)) ↔
      (a, b) ∈ numbers attacks := by
  simp only [numbers, List.map_map, List.mem_map]
  refine exists_congr fun attack => and_congr_right fun _ => ?_
  simp [← renamed_fin]

/-- The framework built from the same attacks, in any order and multiplicity and
under other names, gives the same answers under these names. -/
theorem sequences_rename (hArgs : n < 2 ^ 32) {attacks attacks' : List (Fin n × Fin n)}
    (hSame : ∀ attack, attack ∈ attacks' ↔ attack ∈ attacks) (π : Equiv.Perm (Fin n)) :
    ∃ af af', AF.build n (numbers attacks) = .ok af ∧
      AF.build n (numbers (attacks'.map (Prod.map π π))) = .ok af' ∧
      ∀ (enumerator : Enumerator) (run : CorrectRun af enumerator)
        (run' : CorrectRun af' (enumerator.rename (renamed π))),
        printedSets run'.trace = List.map (Set.image (renamed π)) '' printedSets run.trace := by
  obtain ⟨af, hBuild⟩ := AF.exists_build (numbers_lt attacks)
  obtain ⟨af', hBuild'⟩ := AF.exists_build (numbers_lt (attacks'.map (Prod.map π π)))
  obtain ⟨hWell, hSize, hAttacks⟩ := AF.build_spec hArgs hBuild
  obtain ⟨hWell', hSize', hAttacks'⟩ := AF.build_spec hArgs hBuild'
  have hNumbers : ∀ a b, (a, b) ∈ numbers attacks' ↔ (a, b) ∈ numbers attacks := by
    intro a b
    simp only [numbers, List.mem_map, hSame]
  let σ : af.Attacks ≃r af'.Attacks := ⟨renamed π, fun {a b} => by
    rw [hAttacks', hAttacks, mem_numbers_map, hNumbers]⟩
  have hArguments : Set.preimage σ af'.arguments = af.arguments := by
    ext a
    simp only [Set.mem_preimage, AF.arguments, Set.mem_ofPred_eq, hSize, hSize']
    exact renamed_lt_iff π a
  exact ⟨af, af', hBuild, hBuild', fun enumerator run run' =>
    printedSets_rename σ hArguments hWell hWell' (hSize'.trans hSize.symm) run run'⟩

end Build

/-- One attack, listed twice the other way round. -/
theorem sequences_rename_swap : ∃ af af', AF.build 2 [(0, 1)] = .ok af ∧
    AF.build 2 [(1, 0), (1, 0)] = .ok af' ∧
    printedSets (CorrectRun.ofBruteForce af' .complete).trace =
      List.map (Set.image (renamed (Equiv.swap (0 : Fin 2) 1))) ''
        printedSets (CorrectRun.ofBruteForce af .complete).trace := by
  have hSame : ∀ attack : Fin 2 × Fin 2, attack ∈ [(0, 1), (0, 1)] ↔ attack ∈ [(0, 1)] := by decide
  obtain ⟨af, af', hBuild, hBuild', hRuns⟩ :=
    sequences_rename (show 2 < 2 ^ 32 by decide) hSame (Equiv.swap (0 : Fin 2) 1)
  exact ⟨af, af', hBuild, hBuild', hRuns .complete _ (CorrectRun.ofBruteForce af' .complete)⟩

end SerialisationSolver
