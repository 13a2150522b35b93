import SerialisationSolver.Model.Framework
import SerialisationSolver.Argumentation.Chain

/-! What `get_reduct` computes. The array is the reduct of the active
arguments; the bitset carries their bits, and in addition the bit of every
argument that was inactive before and is attacked by the given set. -/
namespace SerialisationSolver

open Argumentation

theorem getD_set {α : Type*} (bits : List α) (i j : Nat) (v d : α) :
    (bits.set i v).getD j d = if i = j ∧ i < bits.length then v else bits.getD j d := by
  rw [List.getD_eq_getElem?_getD, List.getElem?_set, List.getD_eq_getElem?_getD]
  grind

theorem foldl_set_length {α : Type*} (value : Nat → α) (xs : List Nat) (bits : List α) :
    (xs.foldl (fun bits x => bits.set x (value x)) bits).length = bits.length := by
  induction xs generalizing bits with
  | nil => rfl
  | cons x xs ih => rw [List.foldl_cons, ih, List.length_set]

/-- Writing at several places, at each of them always the same value, so that the
order and repetitions do not matter. -/
theorem getD_foldl_set {α : Type*} (value : Nat → α) (d : α) (xs : List Nat) (bits : List α)
    (j : Nat) :
    (xs.foldl (fun bits x => bits.set x (value x)) bits).getD j d =
      if j ∈ xs ∧ j < bits.length then value j else bits.getD j d := by
  induction xs generalizing bits with
  | nil => simp
  | cons x xs ih =>
      rw [List.foldl_cons, ih, List.length_set, getD_set]
      grind

theorem getD_replicate_zero (n j : Nat) : (List.replicate n (0 : UInt8)).getD j 0 = 0 := by
  rw [List.getD_eq_getElem?_getD, List.getElem?_replicate]
  split <;> rfl

namespace AF.WellFormed

variable {af : AF} (h : af.WellFormed)
include h

theorem mem_attackedBy_iff {a b : Nat} : b ∈ af.attackedBy a ↔ af.Attacks a b :=
    (h.consistent a b).symm

theorem attacks_lt {a b : Nat} (hAttack : af.Attacks a b) : a < af.args ∧ b < af.args :=
  ⟨h.attackers_lt a b hAttack, h.attacked_lt a b ((h.consistent a b).mp hAttack)⟩

end AF.WellFormed

section Marks

variable {af : AF}

/-- The marks of one argument of the set: its own and those of what it attacks, in
one loop. -/
private theorem markStep_eq (bits : List UInt8) (arg : Nat) :
    (af.attackedBy arg).foldl (fun bits arg2 => bits.set arg2 1) (bits.set arg 1) =
      (arg :: af.attackedBy arg).foldl (fun bits x => bits.set x 1) bits := rfl

/-- The first loop writes the same mark at each place, so that it is one loop over
all of these places. -/
theorem markRemoved_eq (arguments : List Nat) :
    markRemoved af arguments =
      (arguments.flatMap fun arg => arg :: af.attackedBy arg).foldl (fun bits x => bits.set x 1)
        (List.replicate af.args 0) := by
  simp only [markRemoved, markStep_eq, List.foldl_flatMap]

@[simp] theorem markRemoved_length (arguments : List Nat) :
    (markRemoved af arguments).length = af.args := by
  rw [markRemoved_eq, foldl_set_length fun _ => 1, List.length_replicate]

/-- Marked are the members of the set and what they attack, be it active or not. -/
theorem markRemoved_ne_zero (h : af.WellFormed) {arguments : List Nat}
    (hRange : ∀ a ∈ arguments, a < af.args) (x : Nat) :
    (markRemoved af arguments).getD x 0 ≠ 0 ↔ x ∈ arguments ∨ ∃ s ∈ arguments, af.Attacks s x := by
  have hMark : (x ∈ arguments.flatMap fun arg => arg :: af.attackedBy arg) ↔
      x ∈ arguments ∨ ∃ s ∈ arguments, af.Attacks s x := by
    simp only [List.mem_flatMap, List.mem_cons, h.mem_attackedBy_iff]
    grind
  have hLess : (x ∈ arguments ∨ ∃ s ∈ arguments, af.Attacks s x) → x < af.args := by
    rintro (hx | ⟨s, _, hs⟩)
    · exact hRange x hx
    · exact (h.attacks_lt hs).2
  rw [markRemoved_eq, getD_foldl_set fun _ => 1, List.length_replicate, getD_replicate_zero]
  simp only [hMark]
  grind

end Marks

section Flip

/-- The accumulating form of the second loop. No argument of the array occurs twice,
so each mark is read before it is turned into a bit. -/
private theorem flip_foldl (array : List Nat) (hNodup : array.Nodup) (collected : List Nat)
    (marks : List UInt8) (hLess : ∀ a ∈ array, a < marks.length) :
    let out := array.foldl (fun (reductArray, bits) arg =>
      if bits.getD arg 0 = 0 then (reductArray ++ [arg], bits.set arg 1)
      else (reductArray, bits.set arg 0)) (collected, marks)
    out.1 = collected ++ array.filter (fun a => marks.getD a 0 = 0) ∧
      out.2.length = marks.length ∧
      ∀ x, out.2.getD x 0 =
        if x ∈ array then (if marks.getD x 0 = 0 then 1 else 0) else marks.getD x 0 := by
  induction array generalizing collected marks with
  | nil => simp
  | cons a array ih =>
      obtain ⟨hNew, hNodup⟩ := List.nodup_cons.mp hNodup
      have hRead : ∀ (v : UInt8) x, x ∈ array → (marks.set a v).getD x 0 = marks.getD x 0 := by
        intro v x hx
        rw [getD_set, if_neg (by grind)]
      have hFilter : ∀ v : UInt8, array.filter (fun x => (marks.set a v).getD x 0 = 0) =
          array.filter (fun x => marks.getD x 0 = 0) := by
        intro v
        exact List.filter_congr fun x hx => by rw [hRead v x hx]
      have hHere : a < marks.length := hLess a List.mem_cons_self
      by_cases hMark : marks.getD a 0 = 0
      · obtain ⟨hArray, hLength, hBits⟩ := ih hNodup (collected ++ [a]) (marks.set a 1)
          (fun x hx => by simpa using hLess x (List.mem_cons_of_mem _ hx))
        simp only [List.foldl_cons, hMark, if_true]
        refine ⟨?_, by simpa using hLength, fun x => ?_⟩
        · rw [hArray, hFilter, List.filter_cons_of_pos (by simpa using hMark), List.append_assoc]
          rfl
        · rw [hBits x, getD_set]
          grind
      · obtain ⟨hArray, hLength, hBits⟩ := ih hNodup collected (marks.set a 0)
          (fun x hx => by simpa using hLess x (List.mem_cons_of_mem _ hx))
        simp only [List.foldl_cons, if_neg hMark]
        refine ⟨?_, by simpa using hLength, fun x => ?_⟩
        · rw [hArray, hFilter, List.filter_cons_of_neg (by simpa using hMark)]
        · rw [hBits x, getD_set]
          grind

end Flip

/-- What both loops make of array and bits, in terms of the marks. Bits of arguments
that are not active are the marks themselves. -/
private theorem getReduct_spec {af : AF} {active : IterableBitSet} (hActive : active.Valid af)
    (set : List Nat) : (getReduct af active set).array =
        active.array.filter (fun a => (markRemoved af set).getD a 0 = 0) ∧
      (getReduct af active set).bitset.length = af.args ∧
      ∀ x, (getReduct af active set).bitset.getD x 0 =
        if x ∈ active.array then (if (markRemoved af set).getD x 0 = 0 then 1 else 0)
        else (markRemoved af set).getD x 0 := by
  obtain ⟨hArray, hLength, hBits⟩ := flip_foldl active.array hActive.nodup [] (markRemoved af set)
    (fun a ha => by simpa using hActive.lt_args a ha)
  rw [List.nil_append] at hArray
  rw [markRemoved_length] at hLength
  exact ⟨hArray, hLength, hBits⟩

section Reduct

variable {af : AF} (h : af.WellFormed) {active : IterableBitSet} (hActive : active.Valid af)
  {set : List Nat} (hSet : ∀ a ∈ set, a ∈ active.array)
include h hActive hSet

/-- The array keeps, in order, what is neither in the set nor attacked by it. The
bits that were there before play no part. -/
theorem getReduct_array : (getReduct af active set).array =
    active.array.filter (fun a => a ∉ set ∧ ∀ s ∈ set, ¬ af.Attacks s a) := by
  rw [(getReduct_spec hActive set).1]
  apply List.filter_congr
  intro a _
  have hMark := markRemoved_ne_zero h (fun b hb => hActive.lt_args b (hSet b hb)) a
  simp only [decide_eq_decide]
  grind

omit h hSet in
theorem getReduct_bitset_length : (getReduct af active set).bitset.length = af.args :=
  (getReduct_spec hActive set).2.1

/-- The bits of the result: those of its array, and in the second case the mark that
stays behind on an inactive argument. -/
theorem getReduct_test (x : Nat) : (getReduct af active set).test x = true ↔
    x ∈ (getReduct af active set).array ∨ (x ∉ active.array ∧ ∃ s ∈ set, af.Attacks s x) := by
  have hMark := markRemoved_ne_zero h (fun b hb => hActive.lt_args b (hSet b hb)) x
  rw [IterableBitSet.test, (getReduct_spec hActive set).2.2 x, getReduct_array h hActive hSet]
  simp only [bne_iff_ne, List.mem_filter, decide_eq_true_eq]
  by_cases hx : x ∈ active.array
  · grind
  · have hNot : x ∉ set := fun hxs => hx (hSet x hxs)
    simp only [hx, if_false, hMark, hNot, false_or, false_and, not_false_eq_true, true_and]

/-- A reduct of a valid set is valid, as each active argument has its bit and no
argument is repeated. -/
theorem getReduct_valid : (getReduct af active set).Valid af where
  nodup := by
    rw [getReduct_array h hActive hSet]
    exact hActive.nodup.filter _
  lt_args := by
    intro a ha
    rw [getReduct_array h hActive hSet] at ha
    exact hActive.lt_args a (List.mem_of_mem_filter ha)
  covers := fun a ha => (getReduct_test h hActive hSet a).mpr (Or.inl ha)

/-- The bitset is exact again if and only if the set attacks active arguments only.
Exactness of the bits before is neither needed nor of any help. -/
theorem getReduct_exact_iff : (getReduct af active set).Exact ↔
    ∀ s ∈ set, ∀ x, af.Attacks s x → x ∈ active.array := by
  have hSub : ∀ x, x ∈ (getReduct af active set).array → x ∈ active.array := by
    intro x hx
    rw [getReduct_array h hActive hSet] at hx
    exact List.mem_of_mem_filter hx
  constructor
  · intro hExact s hs x hAttack
    by_contra hNot
    have hTest := (getReduct_test h hActive hSet x).mpr (Or.inr ⟨hNot, s, hs, hAttack⟩)
    exact hNot (hSub x ((hExact x).mp hTest))
  · intro hOnly x
    rw [getReduct_test h hActive hSet x]
    refine ⟨?_, Or.inl⟩
    rintro (hx | ⟨hNot, s, hs, hAttack⟩)
    · exact hx
    · exact absurd (hOnly s hs x hAttack) hNot

/-- What remains active is strictly less once the set is not empty, which is why the
recursion ends. -/
theorem getReduct_length_lt (hNonempty : set ≠ []) :
    (getReduct af active set).array.length < active.array.length := by
  obtain ⟨a, ha⟩ := List.exists_mem_of_ne_nil set hNonempty
  rw [getReduct_array h hActive hSet]
  exact List.length_filter_lt_length_iff_exists.mpr ⟨a, hSet a ha, by simp [ha]⟩

end Reduct

/-- The frame a set of active arguments stands for: its array and the bits beyond
the array. -/
def IterableBitSet.frame (active : IterableBitSet) : Frame Nat := ⟨active.actives, active.stales⟩

/-- The members of a list, as a set. The enumerators work on lists, the semantics
speak about sets. -/
def setOf (xs : List Nat) : Set Nat := {a | a ∈ xs}

@[simp] theorem mem_setOf {xs : List Nat} {a : Nat} : a ∈ setOf xs ↔ a ∈ xs := Iff.rfl

theorem setOf_nil : setOf [] = ∅ := by
  ext a
  simp

theorem setOf_singleton (a : Nat) : setOf [a] = {a} := by
  ext b
  simp

/-- A sublist is the part of the list that consists of its members, if nothing
occurs twice. -/
theorem filter_mem_of_sublist {xs ys : List Nat} (h : xs.Sublist ys) (hNodup : ys.Nodup) :
    ys.filter (· ∈ xs) = xs := by
  induction h with
  | slnil => rfl
  | @cons xs ys a hSub ih =>
      obtain ⟨hFresh, hRest⟩ := List.nodup_cons.mp hNodup
      have hOut : a ∉ xs := fun ha => hFresh (hSub.subset ha)
      rw [List.filter_cons_of_neg (by simpa using hOut), ih hRest]
  | @cons_cons xs ys a hSub ih =>
      obtain ⟨hFresh, hRest⟩ := List.nodup_cons.mp hNodup
      have hSame : ys.filter (· ∈ a :: xs) = ys.filter (· ∈ xs) := by
        apply List.filter_congr
        intro b hb
        have hNe : b ≠ a := fun hEq => hFresh (hEq ▸ hb)
        simp [hNe]
      rw [List.filter_cons_of_pos (by simp), hSame, ih hRest]

/-- Sublists of a list without duplicates are determined by their members. -/
theorem setOf_injOn {xs ys zs : List Nat} (hNodup : zs.Nodup) (hxs : xs.Sublist zs)
    (hys : ys.Sublist zs) (hSame : setOf xs = setOf ys) : xs = ys := by
  have hMem : ∀ a, a ∈ xs ↔ a ∈ ys := fun a => Set.ext_iff.mp hSame a
  rw [← filter_mem_of_sublist hxs hNodup, ← filter_mem_of_sublist hys hNodup]
  exact List.filter_congr fun a _ => by rw [decide_eq_decide, hMem]

@[simp] theorem IterableBitSet.mem_actives {active : IterableBitSet} {a : Nat} :
    a ∈ active.actives ↔ a ∈ active.array := Iff.rfl

@[simp] theorem IterableBitSet.mem_stales {active : IterableBitSet} {a : Nat} :
    a ∈ active.stales ↔ active.test a = true ∧ a ∉ active.array := Iff.rfl

theorem IterableBitSet.actives_finite (active : IterableBitSet) : active.actives.Finite :=
  active.array.finite_toSet

/-- `get_reduct` refines the step of the abstract frame, stale arguments included.
All that is shown about frames holds of the program through this. -/
theorem getReduct_frame {af : AF} (h : af.WellFormed) {active : IterableBitSet}
    (hActive : active.Valid af) {set : List Nat} (hSet : ∀ a ∈ set, a ∈ active.array) :
    (getReduct af active set).frame = active.frame.step af.Attacks (setOf set) := by
  have hArray := getReduct_array h hActive hSet
  ext x
  · simp [IterableBitSet.frame, Frame.step, hArray]
  · have hTest := getReduct_test h hActive hSet x
    have hSub : x ∈ (getReduct af active set).array → x ∈ active.array := by
      intro hx
      rw [hArray] at hx
      exact List.mem_of_mem_filter hx
    simp only [IterableBitSet.frame, Frame.step, IterableBitSet.mem_stales, hTest,
      Set.mem_ofPred_eq, IterableBitSet.mem_actives, mem_setOf]
    grind

@[simp] theorem mem_full {nArgs a : Nat} : a ∈ (IterableBitSet.full nArgs).array ↔ a < nArgs :=
  List.mem_range

theorem full_test (nArgs a : Nat) :
    (IterableBitSet.full nArgs).test a = true ↔ a ∈ (IterableBitSet.full nArgs).array := by
  by_cases ha : a < nArgs <;> simp [IterableBitSet.test, IterableBitSet.full, ha]

theorem full_valid (af : AF) : (IterableBitSet.full af.args).Valid af where
  nodup := List.nodup_range
  lt_args := fun _ ha => List.mem_range.mp ha
  covers := fun a ha => (full_test af.args a).mpr ha

theorem AF.arguments_finite (af : AF) : af.arguments.Finite := Set.finite_lt_nat af.args

/-- The full set is the frame that every search begins with: all arguments active
and none stale. -/
theorem full_frame (af : AF) : (IterableBitSet.full af.args).frame = ⟨af.arguments, ∅⟩ := by
  ext a
  · simp [IterableBitSet.frame, IterableBitSet.full, AF.arguments]
  · simp [IterableBitSet.frame, full_test]

end SerialisationSolver
