import SerialisationSolver.Correctness.Framework
import SerialisationSolver.Correctness.Reduct
import SerialisationSolver.Model.Cone
import SerialisationSolver.Search.Worklist

/-! `get_cone` refines the search with a stack. Its bitset holds the marks of the
search, and what is reached are the arguments with a path to the given one. -/
namespace SerialisationSolver

/-- The attackers that the loop looks at: those whose bit is set among the active
arguments. -/
def activeAttackersOf (af : AF) (active : IterableBitSet) (arg : Nat) : List Nat :=
  (af.attackersOf arg).filter active.test

section Loop

variable {af : AF} {active cone : IterableBitSet}

theorem mem_activeAttackersOf {a b : Nat} :
    b ∈ activeAttackersOf af active a ↔ af.Attacks b a ∧ active.test b = true := List.mem_filter

/-- Pushing one by one puts the last attacker on top, so that the stack holds them
in reverse. -/
private theorem foldl_push (pushes : Nat → Bool) (attackers stack : List Nat) :
    attackers.foldl (fun stack attacker =>
      if pushes attacker then attacker :: stack else stack) stack =
      (attackers.filter pushes).reverse ++ stack := by
  induction attackers generalizing stack with
  | nil => rfl
  | cons attacker attackers ih =>
      rw [List.foldl_cons, ih]
      by_cases hPush : pushes attacker = true
      · simp [hPush]
      · simp [hPush]

/-- What `get_cone` holds in the middle of the search: the marks are exactly the
collected arguments, with one mark for each argument. -/
structure ConeState (af : AF) (cone : IterableBitSet) : Prop where
  exact : cone.Exact
  length : cone.bitset.length = af.args

theorem coneState_empty (af : AF) : ConeState af ⟨[], List.replicate af.args 0⟩ where
  exact := by
    intro a
    rw [IterableBitSet.test, getD_replicate_zero]
    simp
  length := List.length_replicate

/-- The bits decide whether an argument is collected, as `mark` does by a look at
the list. -/
theorem ConeState.visit_array (hCone : ConeState af cone) (arg : Nat) :
    (visit cone arg).array = Worklist.mark cone.array arg := by
  have hTest := hCone.exact arg
  rw [visit, Worklist.mark]
  by_cases hOld : arg ∈ cone.array
  · simp [hOld, hTest.mpr hOld]
  · simp [hOld, Bool.eq_false_iff.mpr fun hBit => hOld (hTest.mp hBit)]

/-- Collecting an argument keeps marks and array in step with each other. -/
theorem ConeState.visit (hCone : ConeState af cone) {arg : Nat} (hArg : arg < af.args) :
    ConeState af (visit cone arg) := by
  rw [SerialisationSolver.visit]
  split_ifs with hNew
  · refine ⟨fun x => ?_, by simpa using hCone.length⟩
    have hOld := hCone.exact x
    have hLength := hCone.length
    rw [IterableBitSet.test, bne_iff_ne] at hOld ⊢
    rw [getD_set, List.mem_append, List.mem_singleton]
    grind
  · exact hCone

/-- The loop over the attackers pushes what the search pushes. The argument itself
is marked by then, so that a self-attack pushes nothing. -/
theorem ConeState.pushAttackers_eq (hCone : ConeState af cone) {arg : Nat}
    (hArg : arg < af.args) (stack : List Nat) :
    pushAttackers af active (SerialisationSolver.visit cone arg) arg stack =
      (Worklist.pushed (activeAttackersOf af active) cone.array arg).reverse ++ stack := by
  rw [pushAttackers, foldl_push, Worklist.pushed, activeAttackersOf, List.filter_filter]
  congr 2
  apply List.filter_congr
  intro b _
  rw [← hCone.visit_array arg]
  have hTest := (hCone.visit hArg).exact b
  cases hBit : (SerialisationSolver.visit cone arg).test b with
  | false => simp [← hTest, hBit]
  | true => simp [← hTest, hBit]

/-- The loop is the search for what is reached through active attackers. With the
same fuel both come to an end, and the cone is what was marked. -/
theorem coneLoop_of_loop (h : af.WellFormed) {fuel : Nat} {stack visited : List Nat}
    (hCone : ConeState af cone) (hStack : ∀ a ∈ stack, a < af.args)
    (hLoop : Worklist.loop (activeAttackersOf af active) fuel ⟨stack, cone.array⟩ = some visited) :
    ∃ cone', coneLoop af active fuel stack cone = .ok cone' ∧ cone'.array = visited ∧
      ConeState af cone' := by
  induction fuel generalizing stack cone with
  | zero =>
      cases stack with
      | nil => exact ⟨cone, by rw [coneLoop], Option.some.inj hLoop, hCone⟩
      | cons arg stack => cases hLoop
  | succ fuel ih =>
      cases stack with
      | nil => exact ⟨cone, by rw [coneLoop], Option.some.inj hLoop, hCone⟩
      | cons arg stack =>
          have hArg : arg < af.args := hStack arg List.mem_cons_self
          rw [Worklist.loop, Worklist.take, ← hCone.visit_array,
            ← hCone.pushAttackers_eq hArg] at hLoop
          rw [coneLoop]
          apply ih (hCone.visit hArg) _ hLoop
          intro a ha
          rw [hCone.pushAttackers_eq hArg, List.mem_append, List.mem_reverse,
            Worklist.mem_pushed] at ha
          cases ha with
          | inl hNew => exact (h.attacks_lt (mem_activeAttackersOf.mp hNew.1).1).1
          | inr hBelow => exact hStack a (List.mem_cons_of_mem arg hBelow)

end Loop

end SerialisationSolver
