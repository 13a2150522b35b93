import SerialisationSolver.Correctness.Cone
import SerialisationSolver.Correctness.Framework

/-! What `get_cone` returns, for every set of active arguments whose bitset is
exact. -/
namespace SerialisationSolver

/-- An attack inside the set of active arguments. Paths of these are what the cone
is about. -/
def AttacksInside (af : AF) (active : IterableBitSet) (b a : Nat) : Prop :=
  b ∈ active.array ∧ a ∈ active.array ∧ af.Attacks b a

section Cone

variable {af : AF} {active : IterableBitSet} {argument : Nat}

/-- The search follows attacks backwards, from an argument to its attackers. What it
reaches are the arguments with a path to the first one, where all arguments on the
path are active. -/
theorem reaches_iff (hExact : active.Exact) (hArgument : argument ∈ active.array) (b : Nat) :
    Worklist.Reaches (activeAttackersOf af active) argument b ↔
      b ∈ active.array ∧ Relation.ReflTransGen (AttacksInside af active) b argument := by
  constructor
  · intro hReaches
    induction hReaches with
    | refl => exact ⟨hArgument, .refl⟩
    | @tail a b _ hNext ih =>
        obtain ⟨hAttack, hTest⟩ := mem_activeAttackersOf.mp hNext
        have hb : b ∈ active.array := (hExact b).mp hTest
        exact ⟨hb, .head ⟨hb, ih.1, hAttack⟩ ih.2⟩
  · intro hPath
    obtain ⟨-, hPath⟩ := hPath
    induction hPath using Relation.ReflTransGen.head_induction_on with
    | refl => exact .refl
    | @head b a hFirst _ ih =>
        have hNext : b ∈ activeAttackersOf af active a :=
          mem_activeAttackersOf.mpr ⟨hFirst.2.2, (hExact b).mpr hFirst.1⟩
        exact ih.tail hNext

/-- How many attacks are listed, repetitions included. It bounds how often an
argument can be pushed in one round. -/
def AF.attackCount (af : AF) : Nat := af.attackers.flatten.length

theorem activeAttackersOf_length_le (a : Nat) :
    (activeAttackersOf af active a).length ≤ af.attackCount := by
  apply le_trans (List.length_filter_le _ _)
  rw [AF.attackersOf, List.getD_eq_getElem?_getD]
  cases hEntry : af.attackers[a]? with
  | none => exact Nat.zero_le _
  | some attackers => exact (List.sublist_flatten_of_mem (List.mem_of_getElem? hEntry)).length_le

/-- With enough fuel the search ends, and it collects exactly the active arguments
that have a path of attacks to the given one. Cycles and self-attacks are no
exception. -/
theorem getCone_exact (h : af.WellFormed) (hActive : active.Valid af) (hExact : active.Exact)
    (hArgument : argument ∈ active.array) {fuel : Nat}
    (hFuel : 1 + af.attackCount * active.array.length ≤ fuel) :
    ∃ cone, getCone fuel af active argument = .ok cone ∧ cone.array.Nodup ∧
      (∀ b, b ∈ cone.array ↔
        b ∈ active.array ∧ Relation.ReflTransGen (AttacksInside af active) b argument) ∧
      cone.Exact ∧ cone.bitset.length = af.args := by
  have hRange : ∀ a ∈ active.array, ∀ b ∈ activeAttackersOf af active a, b ∈ active.array :=
    fun a _ b hb => (hExact b).mp (mem_activeAttackersOf.mp hb).2
  have hStack : ∀ a ∈ [argument], a ∈ active.array := by simpa using hArgument
  obtain ⟨visited, hLoop, hNodup, hReached⟩ := Worklist.loop_eq hRange
    (fun a _ => activeAttackersOf_length_le a) (Worklist.invariant_start argument) hStack
    (Worklist.size_start argument ▸ hFuel)
  obtain ⟨cone, hCone, rfl, hState⟩ := coneLoop_of_loop h (coneState_empty af)
    (fun a ha => hActive.lt_args a (hStack a ha)) hLoop
  refine ⟨cone, ?_, hNodup, fun b => ?_, hState.exact, hState.length⟩
  · rw [getCone, hActive.covers argument hArgument]
    exact hCone
  · rw [hReached, reaches_iff hExact hArgument]

end Cone

/-- Two arguments that attack each other, one that attacks itself and the first of
them, and one that is attacked only. -/
def looped : AF := ⟨4, [[1, 2], [0], [2], [1]], [[1], [0, 3], [0, 2], []]⟩

theorem getCone_exact_looped :
    ∃ cone, getCone 21 looped (.full 4) 1 = .ok cone ∧ cone.array.Nodup ∧ 2 ∈ cone.array := by
  have hBuild : AF.build 4 [(1, 0), (0, 1), (2, 0), (2, 2), (1, 3)] = .ok looped := by rfl
  have hWell := (AF.build_spec (by decide) hBuild).1
  obtain ⟨cone, hCone, hNodup, hMem, -⟩ := getCone_exact hWell (full_valid looped)
    (full_test looped.args) (mem_full.mpr (show 1 < 4 by decide)) (show 21 ≤ 21 by decide)
  have hInside : ∀ b a, b < 4 → a < 4 → looped.Attacks b a → AttacksInside looped (.full 4) b a :=
    fun b a hb ha hAttack => ⟨mem_full.mpr hb, mem_full.mpr ha, hAttack⟩
  have hPath : Relation.ReflTransGen (AttacksInside looped (.full 4)) 2 1 :=
    .head (hInside 2 0 (by decide) (by decide) (by decide))
      (.single (hInside 0 1 (by decide) (by decide) (by decide)))
  exact ⟨cone, hCone, hNodup, (hMem 2).mpr ⟨mem_full.mpr (by decide), hPath⟩⟩

end SerialisationSolver
