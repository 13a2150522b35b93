import SerialisationSolver.Correctness.InitialSets
import SerialisationSolver.Model.Sequences
import SerialisationSolver.Search.Traversal

/-! The recursion that all enumerators share. They differ in where the next sets
come from, which of them are skipped, when a sequence is printed, and whether
the call returns before it looks for sets at all. -/
namespace SerialisationSolver

open Interaction Interaction.Program Satisfiability Argumentation

/-- What distinguishes one enumerator from another. The flag starts as `init`,
`mark` updates it for every set that is taken, and `prints` reads it. -/
structure Mode (Flag : Type) where
  returns : Sequence → IterableBitSet → Option Bool
  candidates : Nat → IterableBitSet → M (List (List Nat))
  skips : IterableBitSet → List (List Nat) → List Nat → Bool
  init : Flag
  mark : IterableBitSet → List Nat → Flag → Flag
  prints : Flag → Bool

/-- The recursion of all enumerators. A call may return at once, with or without
printing; otherwise it finds sets, calls itself for those that are not skipped, and
may print at the end. -/
def search {Flag : Type} (af : AF) (mode : Mode Flag) : Nat → IterableBitSet → Sequence → M Unit
  | 0, _, _ => .fail .outOfFuel
  | fuel + 1, active, sequence => do
      match mode.returns sequence active with
      | some true => printSequence sequence
      | some false => return
      | none =>
        let mut flag := mode.init
        let sets ← mode.candidates (fuel + 1) active
        for set in sets do
          if mode.skips active sets set then
            continue
          flag := mode.mark active set flag
          let newSequence := sequence ++ [set]
          let newActive := getReduct af active set
          Program.log (.recurse active set newActive newSequence)
          search af mode fuel newActive newSequence
        if mode.prints flag then
          printSequence sequence

/-- What an execution prints, in order and with repetitions, apart from the commas
and the brackets. -/
def printed (trace : Trace) : List Sequence :=
  trace.filterMap fun entry => match entry with
    | .event (.print sequence) => some sequence
    | _ => none

@[simp] theorem printed_nil : printed [] = [] := rfl

@[simp] theorem printed_append (trace later : Trace) :
    printed (trace ++ later) = printed trace ++ printed later := List.filterMap_append ..

@[simp] theorem printed_print (sequence : Sequence) (trace : Trace) :
    printed (.event (.print sequence) :: trace) = sequence :: printed trace := rfl

@[simp] theorem printed_recurse (active newActive : IterableBitSet) (set : List Nat)
    (newSequence : Sequence) (trace : Trace) :
    printed (.event (.recurse active set newActive newSequence) :: trace) = printed trace := rfl

theorem Quiet.printed_eq_nil {trace : Trace} (h : Quiet trace) : printed trace = [] := by
  apply List.filterMap_eq_nil_iff.mpr
  intro entry hEntry
  rcases entry with ⟨query, answer⟩ | event
  · rfl
  · obtain ⟨extension, rfl⟩ := h event hEntry
    rfl

section Refinement

variable {σ Flag : Type} {af : AF} {mode : Mode Flag} {T : SearchTree σ (Set Nat)}
  {abs : IterableBitSet → Sequence → σ} {Good : IterableBitSet → Sequence → Prop}

/-- The candidates that are taken are what the tree offers, and the flag they leave
behind says whether the tree reports. No two candidates have the same members. -/
structure Mode.Offers (mode : Mode Flag) (T : SearchTree σ (Set Nat)) (s : σ)
    (active : IterableBitSet) (sets : List (List Nat)) : Prop where
  nonempty : ∀ set ∈ sets, set ≠ []
  drawn : ∀ set ∈ sets, ∀ a ∈ set, a ∈ active.array
  nodup : (sets.map setOf).Nodup
  kid_iff : ∀ S, T.kid s S ↔ ∃ set ∈ sets, mode.skips active sets set = false ∧ setOf set = S
  prints_iff : mode.prints ((sets.filter fun set => !mode.skips active sets set).foldl
    (fun flag set => mode.mark active set flag) mode.init) = true ↔ T.reports s

/-- A mode implements a tree on the calls that `Good` describes: `abs` gives the
state of the tree for a call, and each recursive call goes where the label leads. -/
structure Mode.Implements (af : AF) (mode : Mode Flag) (T : SearchTree σ (Set Nat))
    (abs : IterableBitSet → Sequence → σ) (Good : IterableBitSet → Sequence → Prop) : Prop where
  valid : ∀ active sequence, Good active sequence → active.Valid af
  returns : ∀ active sequence b, Good active sequence → mode.returns sequence active = some b →
    (∀ S, ¬ T.kid (abs active sequence) S) ∧ (T.reports (abs active sequence) ↔ b = true)
  candidates : ∀ active sequence fuel, Good active sequence → mode.returns sequence active = none →
    2 ^ active.array.length ≤ fuel →
    Ensures Correct (mode.candidates fuel active) (fun out trace => Quiet trace ∧
      ∃ sets, out = .ok sets ∧ mode.Offers T (abs active sequence) active sets)
  next : ∀ active sequence set, Good active sequence → (∀ a ∈ set, a ∈ active.array) →
    T.kid (abs active sequence) (setOf set) →
    Good (getReduct af active set) (sequence ++ [set]) ∧
      abs (getReduct af active set) (sequence ++ [set]) = T.next (abs active sequence) (setOf set)

/-- What the loop has done after some of its sets: those that are not skipped were
traversed one after the other, and the flag was marked for each of them. -/
def Visited (mode : Mode Flag) (T : SearchTree σ (Set Nat)) (s : σ) (active : IterableBitSet)
    (sequence : Sequence) (sets visited : List (List Nat)) (flag : Flag) (trace : Trace) : Prop :=
  ∃ visits : List (List Nat × List Sequence),
    visits.map (·.1) = visited.filter (fun set => !mode.skips active sets set) ∧
    (∀ v ∈ visits, T.Traversal setOf (T.next s (setOf v.1)) (sequence ++ [v.1]) v.2) ∧
    printed trace = visits.flatMap (·.2) ∧
    flag = (visited.filter fun set => !mode.skips active sets set).foldl
      (fun flag set => mode.mark active set flag) mode.init

section Visited

variable {s : σ} {active : IterableBitSet} {sequence : Sequence} {sets visited : List (List Nat)}
  {set : List Nat} {flag : Flag} {trace later : Trace}

theorem visited_nil : Visited mode T s active sequence sets [] mode.init [] := ⟨[], by simp⟩

theorem Visited.skip (h : Visited mode T s active sequence sets visited flag trace)
    (hSkip : mode.skips active sets set = true) :
    Visited mode T s active sequence sets (visited ++ [set]) flag trace := by
  obtain ⟨visits, hVisited, hVisits, hPrinted, hFlag⟩ := h
  exact ⟨visits, by simpa [hSkip] using hVisited, hVisits, hPrinted, by simpa [hSkip] using hFlag⟩

/-- One more set was traversed; what its call printed comes behind what was printed
so far. -/
theorem Visited.take (h : Visited mode T s active sequence sets visited flag trace)
    (hSkip : mode.skips active sets set = false)
    (hBelow : T.Traversal setOf (T.next s (setOf set)) (sequence ++ [set]) (printed later)) :
    Visited mode T s active sequence sets (visited ++ [set]) (mode.mark active set flag)
      (trace ++ later) := by
  obtain ⟨visits, hVisited, hVisits, hPrinted, hFlag⟩ := h
  refine ⟨visits ++ [(set, printed later)], ?_, ?_, ?_, ?_⟩
  · simp [hVisited, hSkip]
  · intro v hv
    cases List.mem_append.mp hv with
    | inl hv => exact hVisits v hv
    | inr hv =>
        rw [List.mem_singleton.mp hv]
        exact hBelow
  · simp [hPrinted]
  · simp [hFlag, hSkip]

/-- After all sets the children are traversed, and the flag decides about the rest,
namely whether the path itself is printed. -/
theorem Visited.node (h : Visited mode T s active sequence sets sets flag trace)
    (hOffers : mode.Offers T s active sets) :
    T.Traversal setOf s sequence (printed trace ++
      if mode.prints flag then [sequence] else []) := by
  obtain ⟨visits, hVisited, hVisits, hPrinted, rfl⟩ := h
  have hLabels : visits.map (fun v => setOf v.1) =
      (sets.filter fun set => !mode.skips active sets set).map setOf := by
    rw [← hVisited, List.map_map]
    rfl
  have hNodup : (visits.map fun v => setOf v.1).Nodup :=
    hLabels ▸ hOffers.nodup.sublist (List.filter_sublist.map setOf)
  have hKids : ∀ S, S ∈ visits.map (fun v => setOf v.1) ↔ T.kid s S := by
    intro S
    rw [hLabels, hOffers.kid_iff, List.mem_map]
    simp [and_assoc]
  rw [hPrinted]
  apply SearchTree.Traversal.node visits hNodup hKids hVisits
  rw [← hOffers.prints_iff]
  split_ifs with hPrints
  · exact Or.inl ⟨hPrints, rfl⟩
  · exact Or.inr ⟨hPrints, rfl⟩

end Visited

/-- The loop traverses the children one after the other. What the calls below do is
assumed here and comes from the induction of `search_ensures`. -/
private theorem loop_ensures {s : σ} {fuel : Nat} {active : IterableBitSet} {sequence : Sequence}
    {sets : List (List Nat)}
    (hBelow : ∀ set ∈ sets, mode.skips active sets set = false →
      Ensures Correct (search af mode fuel (getReduct af active set) (sequence ++ [set]))
        (fun out trace => out = .ok () ∧
          T.Traversal setOf (T.next s (setOf set)) (sequence ++ [set]) (printed trace))) :
    Ensures Correct (forIn sets mode.init fun set flag =>
        if mode.skips active sets set = true then pure (ForInStep.yield flag)
        else do
          Program.log (.recurse active set (getReduct af active set) (sequence ++ [set]))
          search af mode fuel (getReduct af active set) (sequence ++ [set])
          pure (ForInStep.yield (mode.mark active set flag)))
      (fun out trace => ∃ flag, out = .ok flag ∧
        Visited mode T s active sequence sets sets flag trace) := by
  refine Ensures.loop (fun visited flag trace =>
    Visited mode T s active sequence sets visited flag trace) visited_nil ?_ ?_
  · intro visited set flag trace hSet hVisited
    cases hSkip : mode.skips active sets set with
    | true => simpa [Ensures, pure_eq_done, LoopStep] using hVisited.skip hSkip
    | false =>
        refine Ensures.log (Ensures.seq _ (hBelow set hSet hSkip) ?_ ?_)
        · intro fault later hVisit
          cases hVisit.1
        · intro _ later hVisit
          obtain ⟨-, hTraversal⟩ := hVisit
          rw [← printed_recurse active (getReduct af active set) set
            (sequence ++ [set])] at hTraversal
          simpa [Ensures, pure_eq_done, LoopStep] using hVisited.take hSkip hTraversal
  · exact fun flag trace hVisited => ⟨flag, rfl, hVisited⟩

/-- The recursion traverses the tree that its mode implements. By induction on the
fuel, of which a call with `n` active arguments needs `2 ^ n`. -/
theorem search_ensures (h : af.WellFormed) (hImpl : mode.Implements af T abs Good) (fuel : Nat)
    {active : IterableBitSet} {sequence : Sequence} (hGood : Good active sequence)
    (hFuel : 2 ^ active.array.length ≤ fuel) :
    Ensures Correct (search af mode fuel active sequence) (fun out trace =>
      out = .ok () ∧ T.Traversal setOf (abs active sequence) sequence (printed trace)) := by
  induction fuel generalizing active sequence with
  | zero =>
      have hPos := Nat.two_pow_pos active.array.length
      omega
  | succ fuel ih =>
      rw [search]
      cases hReturns : mode.returns sequence active with
      | some b =>
          obtain ⟨hLeaf, hReports⟩ := hImpl.returns active sequence b hGood hReturns
          cases b with
          | true => exact ⟨rfl, .leaf hLeaf (Or.inl ⟨hReports.mpr rfl, rfl⟩)⟩
          | false =>
            exact ⟨rfl, .leaf hLeaf (Or.inr ⟨fun hR => by simpa using hReports.mp hR, rfl⟩)⟩
      | none =>
          refine Ensures.seq _ (hImpl.candidates active sequence
            (fuel + 1) hGood hReturns hFuel) ?_ ?_
          · intro fault trace hSets
            obtain ⟨-, sets, hEq, -⟩ := hSets
            cases hEq
          · rintro sets trace ⟨hQuiet, _, ⟨⟩, hOffers⟩
            refine Ensures.seq _ (loop_ensures (T := T) (s := abs active sequence) ?_) ?_ ?_
            · intro set hSet hSkip
              have hDrawn := hOffers.drawn set hSet
              have hKid := (hOffers.kid_iff (setOf set)).mpr ⟨set, hSet, hSkip, rfl⟩
              obtain ⟨hGood', hAbs⟩ := hImpl.next active sequence set hGood hDrawn hKid
              rw [← hAbs]
              apply ih hGood'
              have hLess := getReduct_length_lt h (hImpl.valid active sequence hGood) hDrawn
                (hOffers.nonempty set hSet)
              have hHalf := Nat.pow_lt_pow_right (by decide : 1 < 2) hLess
              omega
            · intro fault later hLoop
              obtain ⟨flag, hEq, -⟩ := hLoop
              cases hEq
            · rintro flag later ⟨_, ⟨⟩, hVisited⟩
              have hNode := hVisited.node hOffers
              dsimp only
              split_ifs with hPrints
              · exact ⟨rfl, by simpa [hQuiet.printed_eq_nil, hPrints] using hNode⟩
              · exact ⟨rfl, by simpa [hQuiet.printed_eq_nil, hPrints] using hNode⟩

end Refinement

end SerialisationSolver
