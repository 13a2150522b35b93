import SerialisationSolver.Search.Tree
import Mathlib.Data.List.Nodup

/-! Depth-first traversals of a search tree. A traversal carries the path on
which it came, visits every label offered once, and outputs the path itself
after the outputs of its children. Labels have concrete representations, of
which each traversal uses one. -/

namespace SearchTree

variable {State Label Concrete : Type*} (T : SearchTree State Label) (label : Concrete → Label)

/-- The outputs of a depth-first traversal, in order. `visits` pairs each visited
label with the outputs below it; the path itself comes last, if the state reports. -/
inductive Traversal : State → List Concrete → List (List Concrete) → Prop
  | node {s : State} {path : List Concrete} (visits : List (Concrete × List (List Concrete)))
      {own : List (List Concrete)} (hNodup : (visits.map fun v => label v.1).Nodup)
      (hKids : ∀ l, l ∈ visits.map (fun v => label v.1) ↔ T.kid s l)
      (hVisits : ∀ v ∈ visits, Traversal (T.next s (label v.1)) (path ++ [v.1]) v.2)
      (hOwn : T.reports s ∧ own = [path] ∨ ¬ T.reports s ∧ own = []) :
      Traversal s path (visits.flatMap (·.2) ++ own)

variable {T label} {s : State} {path : List Concrete} {out : List (List Concrete)}

/-- Where nothing is offered, the path itself is all there can be, and it is there
if the state reports. -/
theorem Traversal.leaf (hLeaf : T.Leaf s) (hOut : T.reports s ∧ out = [path] ∨ ¬ T.reports s ∧
    out = []) :
    T.Traversal label s path out :=
  .node [] (by simp) (fun l => by simpa using hLeaf l) (by simp) hOut

/-- Every output extends the path by a sequence that the tree reports. By induction
on the traversal, where an output comes from a child or is the path. -/
theorem Traversal.sound (h : T.Traversal label s path out) :
    ∀ found ∈ out, ∃ ls, found = path ++ ls ∧ ls.map label ∈ T.Reported s := by
  induction h with
  | @node s path visits own hNodup hKids hVisits hOwn ih =>
      intro found hFound
      cases List.mem_append.mp hFound with
      | inl hBelow =>
          obtain ⟨v, hv, hBelow⟩ := List.mem_flatMap.mp hBelow
          obtain ⟨ls, rfl, hReported⟩ := ih v hv found hBelow
          have hKid : T.kid s (label v.1) := (hKids _).mp (List.mem_map_of_mem hv)
          exact ⟨v.1 :: ls, by simp, by simpa using ⟨hKid, hReported⟩⟩
      | inr hHere =>
          rcases hOwn with ⟨hReports, rfl⟩ | ⟨-, rfl⟩
          · exact ⟨[], by simpa using hHere, by simpa using hReports⟩
          · simp at hHere

/-- Every sequence that the tree reports is output in some representation. Its first
label is offered, hence visited, and the rest is found below. -/
theorem Traversal.complete (h : T.Traversal label s path out) :
    ∀ ls ∈ T.Reported s, ∃ ks, ks.map label = ls ∧ path ++ ks ∈ out := by
  induction h with
  | @node s path visits own hNodup hKids hVisits hOwn ih =>
      intro ls hReported
      cases ls with
      | nil =>
          rw [mem_reported_nil] at hReported
          obtain ⟨-, rfl⟩ := hOwn.resolve_right fun hNot => hNot.1 hReported
          exact ⟨[], rfl, by simp⟩
      | cons l ls =>
          obtain ⟨hKid, hRest⟩ := (mem_reported_cons T s l ls).mp hReported
          obtain ⟨v, hv, rfl⟩ := List.mem_map.mp ((hKids l).mpr hKid)
          obtain ⟨ks, rfl, hOut⟩ := ih v hv ls hRest
          refine ⟨v.1 :: ks, rfl, List.mem_append_left _ (List.mem_flatMap.mpr ⟨v, hv, ?_⟩)⟩
          simpa using hOut

/-- A traversal that starts with the empty path outputs what the tree reports, as
far as labels go. -/
theorem Traversal.mem_iff (h : T.Traversal label s [] out) (ls : List Label) :
    ls ∈ out.map (List.map label) ↔ ls ∈ T.Reported s := by
  constructor
  · intro hMem
    obtain ⟨found, hFound, rfl⟩ := List.mem_map.mp hMem
    obtain ⟨ks, rfl, hReported⟩ := h.sound found hFound
    simpa using hReported
  · intro hReported
    obtain ⟨ks, rfl, hOut⟩ := h.complete ls hReported
    exact List.mem_map_of_mem (by simpa using hOut)

/-- No sequence of labels is output twice. Below different children the outputs
differ in the label of the child, and the path itself is shorter than all of them. -/
theorem Traversal.nodup (h : T.Traversal label s path out) : (out.map (List.map label)).Nodup := by
  induction h with
  | @node s path visits own hNodup hKids hVisits hOwn ih =>
      have hBelow : ∀ v ∈ visits, ∀ found ∈ v.2.map (List.map label),
          ∃ ls, found = path.map label ++ label v.1 :: ls := by
        intro v hv found hFound
        obtain ⟨out, hOut, rfl⟩ := List.mem_map.mp hFound
        obtain ⟨ls, rfl, -⟩ := (hVisits v hv).sound out hOut
        exact ⟨ls.map label, by simp⟩
      rw [List.map_append, List.map_flatMap, List.nodup_append]
      refine ⟨List.nodup_flatMap.mpr ⟨ih, ?_⟩, ?_, ?_⟩
      · apply (List.pairwise_map.mp hNodup).imp_of_mem
        intro v w hv hw hNe found hFound hFound'
        obtain ⟨ls, rfl⟩ := hBelow v hv found hFound
        obtain ⟨ms, hEq⟩ := hBelow w hw _ hFound'
        exact hNe (List.cons.inj (List.append_cancel_left hEq)).1
      · rcases hOwn with ⟨-, rfl⟩ | ⟨-, rfl⟩
        · exact List.nodup_singleton _
        · exact List.nodup_nil
      · intro found hFound own' hOwn' hEq
        obtain ⟨v, hv, hFound⟩ := List.mem_flatMap.mp hFound
        obtain ⟨ls, rfl⟩ := hBelow v hv found hFound
        rcases hOwn with ⟨-, rfl⟩ | ⟨-, rfl⟩
        · rw [List.map_singleton, List.mem_singleton] at hOwn'
          rw [hOwn'] at hEq
          simp at hEq
        · simp at hOwn'

section Order

/-- Every output below a child begins with the path to this child, the label of the
child included. -/
private theorem below_eq {visits : List (Concrete × List (List Concrete))}
    (hVisits : ∀ v ∈ visits, T.Traversal label (T.next s (label v.1)) (path ++ [v.1]) v.2) :
    ∀ v ∈ visits, ∀ found ∈ v.2, ∃ ls, found = path ++ v.1 :: ls := by
  intro v hv found hFound
  obtain ⟨ls, rfl, -⟩ := (hVisits v hv).sound found hFound
  exact ⟨ls, by simp⟩

/-- Children come before the path that leads to them: no output is the beginning of
a later one. -/
theorem Traversal.pairwise (h : T.Traversal label s path out) :
    out.Pairwise fun earlier later => ¬ earlier.map label <+: later.map label := by
  induction h with
  | @node s path visits own hNodup hKids hVisits hOwn ih =>
      have hBelow := below_eq hVisits
      refine List.pairwise_append.mpr ⟨List.pairwise_flatMap.mpr ⟨ih, ?_⟩, ?_, ?_⟩
      · apply (List.pairwise_map.mp hNodup).imp_of_mem
        intro v w hv hw hNe earlier hEarlier later hLater hPrefix
        obtain ⟨ls, rfl⟩ := hBelow v hv earlier hEarlier
        obtain ⟨ms, rfl⟩ := hBelow w hw later hLater
        rw [List.map_append, List.map_append, List.prefix_append_right_inj, List.map_cons,
          List.map_cons, List.cons_prefix_cons] at hPrefix
        exact hNe hPrefix.1
      · rcases hOwn with ⟨-, rfl⟩ | ⟨-, rfl⟩
        · exact List.pairwise_singleton _ _
        · exact List.Pairwise.nil
      · intro earlier hEarlier later hLater hPrefix
        obtain ⟨v, hv, hEarlier⟩ := List.mem_flatMap.mp hEarlier
        obtain ⟨ls, rfl⟩ := hBelow v hv earlier hEarlier
        rcases hOwn with ⟨-, rfl⟩ | ⟨-, rfl⟩
        · rw [List.mem_singleton.mp hLater] at hPrefix
          have hLength := hPrefix.length_le
          simp only [List.length_map, List.length_append, List.length_cons] at hLength
          omega
        · simp at hLater

/-- The items with a property stand next to each other: before and after them there
is none with it. -/
def Together {Item : Type*} (P : Item → Prop) (items : List Item) : Prop :=
  ∃ before inside after, items = before ++ inside ++ after ∧ (∀ item ∈ inside, P item) ∧
    (∀ item ∈ before, ¬ P item) ∧ ∀ item ∈ after, ¬ P item

theorem together_of_all {Item : Type*} {P : Item → Prop} {items : List Item}
    (hAll : ∀ item ∈ items, P item) : Together P items :=
      ⟨[], items, [], by simp, hAll, by simp, by simp⟩

theorem together_of_none {Item : Type*} {P : Item → Prop} {items : List Item}
    (hNone : ∀ item ∈ items, ¬ P item) : Together P items :=
  ⟨items, [], [], by simp, by simp, hNone, by simp⟩

/-- Items without the property may be put before and after, and the others still
stand next to each other. -/
theorem Together.between {Item : Type*} {P : Item → Prop} {items : List Item} (h : Together P items)
    (before after : List Item) (hBefore : ∀ item ∈ before, ¬ P item)
    (hAfter : ∀ item ∈ after, ¬ P item) :
    Together P (before ++ items ++ after) := by
  obtain ⟨first, inside, last, rfl, hInside, hFirst, hLast⟩ := h
  exact ⟨before ++ first, inside, last ++ after, by simp, hInside,
    List.forall_mem_append.mpr ⟨hBefore, hFirst⟩, List.forall_mem_append.mpr ⟨hLast, hAfter⟩⟩

/-- At most one child has outputs that begin with a given longer path, so that the
outputs of the other children stand before or after those. -/
private theorem together_flatMap {visits : List (Concrete × List (List Concrete))} {c : Concrete}
    {cs : List Concrete} (hNodup : (visits.map (·.1)).Nodup)
    (hBelow : ∀ v ∈ visits, ∀ found ∈ v.2, ∃ ls, found = path ++ v.1 :: ls)
    (hEach : ∀ v ∈ visits, Together (path ++ c :: cs <+: ·) v.2) :
    Together (path ++ c :: cs <+: ·) (visits.flatMap (·.2)) := by
  have hOther : ∀ v ∈ visits, v.1 ≠ c → ∀ found ∈ v.2, ¬ path ++ c :: cs <+: found := by
    intro v hv hNe found hFound hPrefix
    obtain ⟨ls, rfl⟩ := hBelow v hv found hFound
    rw [List.prefix_append_right_inj, List.cons_prefix_cons] at hPrefix
    exact hNe hPrefix.1.symm
  induction visits with
  | nil => exact together_of_none (by simp)
  | cons v visits ih =>
      rw [List.map_cons, List.nodup_cons] at hNodup
      rw [List.forall_mem_cons] at hBelow hEach hOther
      rw [List.flatMap_cons]
      by_cases hHere : v.1 = c
      · have hRest : ∀ found ∈ visits.flatMap (·.2), ¬ path ++ c :: cs <+: found := by
          intro found hFound
          obtain ⟨w, hw, hFound⟩ := List.mem_flatMap.mp hFound
          refine hOther.2 w hw (fun hSame => hNodup.1 ?_) found hFound
          rw [hHere, ← hSame]
          exact List.mem_map_of_mem hw
        exact hEach.1.between [] _ (by simp) hRest
      · have hRest := ih hNodup.2 hBelow.2 hEach.2 hOther.2
        have hJoined := hRest.between v.2 [] (hOther.1 hHere) (by simp)
        rwa [List.append_nil] at hJoined

/-- The outputs that begin with a given sequence are output one after the other. By
induction on the traversal: the sequence lies on the path, or leads into one of the
children. -/
theorem Traversal.together (h : T.Traversal label s path out) (start : List Concrete) :
    Together (start <+: ·) out := by
  induction h with
  | @node s path visits own hNodup hKids hVisits hOwn ih =>
      have hAll : ∀ found ∈ visits.flatMap (·.2) ++ own, path <+: found := by
        intro found hFound
        obtain ⟨ls, rfl, -⟩ := (Traversal.node visits hNodup hKids hVisits hOwn).sound found hFound
        exact List.prefix_append path ls
      by_cases hShort : start <+: path
      · exact together_of_all fun found hFound => hShort.trans (hAll found hFound)
      by_cases hLong : path <+: start
      · obtain ⟨_ | ⟨c, cs⟩, rfl⟩ := hLong
        · exact absurd (by simp) hShort
        have hDistinct : (visits.map (·.1)).Nodup := by
          rw [show visits.map (fun v => label v.1) = (visits.map (·.1)).map label by simp] at hNodup
          exact hNodup.of_map label
        have hHere : ∀ found ∈ own, ¬ path ++ c :: cs <+: found := by
          intro found hFound hPrefix
          rcases hOwn with ⟨-, rfl⟩ | ⟨-, rfl⟩
          · exact hShort (List.mem_singleton.mp hFound ▸ hPrefix)
          · simp at hFound
        have hJoined := together_flatMap hDistinct (below_eq hVisits) fun v hv => ih v hv
        exact hJoined.between [] own (by simp) hHere
      · apply together_of_none
        intro found hFound hPrefix
        exact (List.prefix_or_prefix_of_prefix hPrefix (hAll found hFound)).elim hShort hLong

end Order

end SearchTree
