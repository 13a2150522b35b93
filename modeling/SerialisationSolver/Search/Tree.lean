import Mathlib.Data.Set.Lattice

/-! Search spaces given by the labels a state offers and the state each label
leads to. What a search reports is the set of label sequences that end in a
reporting state; two searches are compared through the labels they offer. -/

/-- A search space. `kid` says which labels a state offers, `next` where a label
leads, and `reports` which states the search is after. Nothing is said about the
order of the labels. -/
structure SearchTree (State Label : Type*) where
  kid : State → Label → Prop
  next : State → Label → State
  reports : State → Prop

namespace SearchTree

variable {State Label : Type*} (T U : SearchTree State Label)

/-- Every label is offered by the state its predecessors lead to, so that a search
can go this way. -/
def Chain : State → List Label → Prop
  | _, [] => True
  | s, l :: ls => T.kid s l ∧ Chain (T.next s l) ls

/-- Where some labels lead, whether or not they are offered on the way. -/
def after (s : State) (ls : List Label) : State := ls.foldl T.next s

/-- A state that offers no label. A search has to turn back there. -/
def Leaf (s : State) : Prop := ∀ l, ¬ T.kid s l

/-- The sequences a depth-first traversal from `s` reports: the chains that end in a
state which reports. -/
def Reported (s : State) : Set (List Label) := {ls | T.Chain s ls ∧ T.reports (T.after s ls)}

@[simp] theorem chain_nil (s : State) : T.Chain s [] := trivial

@[simp] theorem chain_cons (s : State) (l : Label) (ls : List Label) :
    T.Chain s (l :: ls) ↔ T.kid s l ∧ T.Chain (T.next s l) ls := Iff.rfl

@[simp] theorem after_nil (s : State) : T.after s [] = s := rfl

@[simp] theorem after_cons (s : State) (l : Label) (ls : List Label) :
    T.after s (l :: ls) = T.after (T.next s l) ls := rfl

theorem after_append (s : State) (ls ms : List Label) :
    T.after s (ls ++ ms) = T.after (T.after s ls) ms := List.foldl_append

/-- A chain can be cut anywhere, and its second part is a chain from the state in
between. -/
theorem chain_append (s : State) (ls ms : List Label) :
    T.Chain s (ls ++ ms) ↔ T.Chain s ls ∧ T.Chain (T.after s ls) ms := by
  induction ls generalizing s with
  | nil => simp
  | cons l ls ih => simp [ih, and_assoc]

/-- A longer chain has one more label that is offered at the end. This is the form
in which chains are built up. -/
theorem chain_concat (s : State) (ls : List Label) (l : Label) :
    T.Chain s (ls ++ [l]) ↔ T.Chain s ls ∧ T.kid (T.after s ls) l := by
  simp [chain_append]

@[simp] theorem mem_reported_nil (s : State) : [] ∈ T.Reported s ↔ T.reports s := by
  simp [Reported]

@[simp] theorem mem_reported_cons (s : State) (l : Label) (ls : List Label) :
    l :: ls ∈ T.Reported s ↔ T.kid s l ∧ ls ∈ T.Reported (T.next s l) := by
  simp [Reported, and_assoc]

variable {T U}

/-- Every chain extends to a leaf when each offered label lowers a measure. The
invariant restricts this to the states in which the measure works. -/
theorem exists_chain_to_leaf (inv : State → Prop) (size : State → Nat)
    (hStep : ∀ s l, inv s → T.kid s l → inv (T.next s l) ∧ size (T.next s l) < size s)
    (s : State) (hStart : inv s) : ∃ ls, T.Chain s ls ∧ T.Leaf (T.after s ls) := by
  induction hSize : size s using Nat.strong_induction_on generalizing s with
  | h n ih =>
      by_cases hLeaf : T.Leaf s
      · exact ⟨[], trivial, hLeaf⟩
      · obtain ⟨l, hKid⟩ := not_forall_not.mp hLeaf
        obtain ⟨hNext, hLess⟩ := hStep s l hStart hKid
        obtain ⟨ls, hChain, hEnd⟩ := ih _ (hSize ▸ hLess) (T.next s l) hNext rfl
        exact ⟨l :: ls, ⟨hKid, hChain⟩, hEnd⟩

/-- Trees with the same successors that offer the same labels along the chains of
one of them have the same chains. The condition is only about states that the search
comes to. -/
theorem chain_congr (hNext : T.next = U.next) {s : State}
    (hKid : ∀ ls, T.Chain s ls → ∀ l, T.kid (T.after s ls) l ↔ U.kid (T.after s ls) l)
    (ls : List Label) : T.Chain s ls ↔ U.Chain s ls := by
  induction ls generalizing s with
  | nil => simp
  | cons l ls ih =>
      have hHere : T.kid s l ↔ U.kid s l := hKid [] trivial l
      have hRest : T.kid s l → (T.Chain (T.next s l) ls ↔ U.Chain (T.next s l) ls) := by
        intro hOffered
        exact ih (fun ms hChain => hKid (l :: ms) ⟨hOffered, hChain⟩)
      simp only [chain_cons, ← hNext, ← hHere]
      exact and_congr_right hRest

theorem after_congr (hNext : T.next = U.next) (s : State) (ls : List Label) :
    T.after s ls = U.after s ls := by simp only [after, hNext]

/-- When both trees exhaust their chains, equal sets of leaf sequences force equal
labels along every chain: a label that only one of them offers would be continued to
a leaf that the other does not have. -/
theorem kid_congr_of_leaves (hNext : T.next = U.next) {s : State}
    (hExtend : ∀ ls, T.Chain s ls → ∃ ms, T.Chain (T.after s ls) ms ∧ T.Leaf (T.after s (ls ++ ms)))
    (hExtend' : ∀ ls, U.Chain s ls → ∃ ms, U.Chain (U.after s ls) ms ∧
      U.Leaf (U.after s (ls ++ ms)))
    (hLeaves : ∀ ls, T.Chain s ls ∧ T.Leaf (T.after s ls) ↔ U.Chain s ls ∧ U.Leaf (U.after s ls))
    {ls : List Label} (hChain : T.Chain s ls) (l : Label) :
    T.kid (T.after s ls) l ↔ U.kid (T.after s ls) l := by
  have hForward : ∀ ks, T.Chain s ks → U.Chain s ks := by
    intro ks hKs
    obtain ⟨ms, hMs, hEnd⟩ := hExtend ks hKs
    have hBoth := (hLeaves (ks ++ ms)).mp ⟨(T.chain_append s ks ms).mpr ⟨hKs, hMs⟩, hEnd⟩
    exact ((U.chain_append s ks ms).mp hBoth.1).1
  have hBackward : ∀ ks, U.Chain s ks → T.Chain s ks := by
    intro ks hKs
    obtain ⟨ms, hMs, hEnd⟩ := hExtend' ks hKs
    have hBoth := (hLeaves (ks ++ ms)).mpr ⟨(U.chain_append s ks ms).mpr ⟨hKs, hMs⟩, hEnd⟩
    exact ((T.chain_append s ks ms).mp hBoth.1).1
  constructor
  · intro hKid
    have hLong := hForward (ls ++ [l]) ((T.chain_concat s ls l).mpr ⟨hChain, hKid⟩)
    rw [after_congr hNext s ls]
    exact ((U.chain_concat s ls l).mp hLong).2
  · intro hKid
    rw [after_congr hNext s ls] at hKid
    have hLong := hBackward (ls ++ [l]) ((U.chain_concat s ls l).mpr ⟨hForward ls hChain, hKid⟩)
    exact ((T.chain_concat s ls l).mp hLong).2

/-- Trees that correspond step by step report corresponding sequences. States and
labels are mapped, and neither map has to be injective. -/
theorem mem_reported_map {State' Label' : Type*} {V : SearchTree State' Label'} (f : State → State')
    (g : Label → Label') (hKid : ∀ s l, T.kid s l ↔ V.kid (f s) (g l))
    (hNext : ∀ s l, f (T.next s l) = V.next (f s) (g l))
    (hReports : ∀ s, T.reports s ↔ V.reports (f s))
    (s : State) (ls : List Label) : ls ∈ T.Reported s ↔ ls.map g ∈ V.Reported (f s) := by
  induction ls generalizing s with
  | nil => simp [hReports]
  | cons l ls ih => rw [mem_reported_cons, List.map_cons, mem_reported_cons, hKid, ih, hNext]

end SearchTree
