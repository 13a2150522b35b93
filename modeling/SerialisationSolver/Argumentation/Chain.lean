import SerialisationSolver.Argumentation.Admissible
import SerialisationSolver.Search.Tree

/-! Sequences of sets, each picked from the reduct by its predecessors. A frame
also remembers the stale arguments: those that were out already when the last
set attacked them. Searches that count stale arguments as helpers are compared
here with serialisation sequences, where every set is initial. -/
namespace Argumentation

variable {α : Type*} (R : α → α → Prop)

/-- Where a search stands after some sets were picked: the arguments that are still
active, and those that the last set attacked although they were out already. -/
@[ext] structure Frame (α : Type*) where
  active : Set α
  stale : Set α

/-- Picking a set leaves the reduct by it. Stale arguments are those of this step
only, as the source makes the bits of a reduct anew and marks in them what the set
attacks. -/
def Frame.step (F : Frame α) (S : Set α) : Frame α where
  active := reduct R F.active S
  stale := {x | x ∉ F.active ∧ ∃ s ∈ S, R s x}

/-- The frame after all sets of a sequence, from the frame in which every argument
of `A` is active and none is stale. -/
def frameAfter (A : Set α) (ls : List (Set α)) : Frame α := ls.foldl (Frame.step R) ⟨A, ∅⟩

/-- What a sequence of sets picks altogether. Order and repetitions are forgotten;
the extensions are compared with this set. -/
def unionOf (ls : List (Set α)) : Set α := {a | ∃ S ∈ ls, a ∈ S}

/-- Serialisation sequences: every set is initial in the reduct by the union of the
sets before it. Stale arguments do not occur in this notion, which is the textbook
one. -/
def IsSerialisation (A : Set α) (ls : List (Set α)) : Prop :=
  ∀ before S later, ls = before ++ S :: later → IsInitial R (reduct R A (unionOf before)) S

/-- The search that picks sets which are initial when stale arguments count as
helpers, and reports the frames it is asked to. The enumerators of admissible,
complete and stable sequences are instances of it. -/
def staleTree (reports : Frame α → Prop) : SearchTree (Frame α) (Set α) where
  kid F S := IsInitialWith R F.active F.stale S
  next := Frame.step R
  reports := reports

/-- A sequence that this search can follow from the beginning, whether or not the
frame at its end is reported. -/
def StaleChain (A : Set α) (ls : List (Set α)) : Prop :=
  (staleTree R fun _ => True).Chain ⟨A, ∅⟩ ls

/-- Each argument that a set of the sequence leaves unanswered is attacked by a set
that comes later. Nothing is said about when, so that the whole sequence has to be
known. -/
def Answered (A : Set α) (ls : List (Set α)) : Prop :=
  ∀ before S later, ls = before ++ S :: later →
    ∀ b, Unanswered R (reduct R A (unionOf before)) S b → ∃ T ∈ later, ∃ c ∈ T, R c b

variable {R} {A G E : Set α} {ls : List (Set α)}

@[simp] theorem mem_unionOf {a : α} : a ∈ unionOf ls ↔ ∃ S ∈ ls, a ∈ S := Iff.rfl

@[simp] theorem unionOf_nil : unionOf ([] : List (Set α)) = ∅ := by
  ext a
  simp

@[simp] theorem unionOf_cons (S : Set α) : unionOf (S :: ls) = S ∪ unionOf ls := by
  ext a
  simp

/-- Two sequences after each other pick what both pick. Inductions that add a set at
the end use the case of one set. -/
@[simp] theorem unionOf_append (ms : List (Set α)) :
    unionOf (ls ++ ms) = unionOf ls ∪ unionOf ms := by
  ext a
  simp [or_and_right, exists_or]

/-- Whatever frame a sequence starts from, it leaves the reduct by its union active,
since two reducts in a row are one by the union. -/
theorem foldl_step_active (F : Frame α) :
    (ls.foldl (Frame.step R) F).active = reduct R F.active (unionOf ls) := by
  induction ls generalizing F with
  | nil => simp
  | cons S ls ih => rw [List.foldl_cons, ih, unionOf_cons, Frame.step, reduct_reduct]

theorem frameAfter_active : (frameAfter R A ls).active = reduct R A (unionOf ls) :=
  foldl_step_active _

/-- One more set is one more step from the frame that the others leave. Stale
arguments are those of this step. -/
theorem frameAfter_concat (S : Set α) : frameAfter R A (ls ++ [S]) = (frameAfter R A ls).step R S :=
  List.foldl_append

/-- The labels along a chain, each seen from the frame before it. The tree may offer
and report what it likes as long as it steps from frame to frame. -/
theorem chain_iff_forall {T : SearchTree (Frame α) (Set α)} (hNext : T.next = Frame.step R) :
    T.Chain ⟨A, ∅⟩ ls ↔
      ∀ before S later, ls = before ++ S :: later → T.kid (frameAfter R A before) S := by
  induction ls using List.reverseRecOn with
  | nil => simp
  | append_singleton ls S ih =>
      rw [SearchTree.chain_concat, ih, SearchTree.after, hNext]
      constructor
      · rintro ⟨hEarlier, hLast⟩ before T' later hEq
        rcases List.eq_nil_or_concat later with rfl | ⟨later, T'', rfl⟩
        · obtain ⟨rfl, hSame⟩ := List.append_inj' hEq rfl
          obtain rfl := List.singleton_inj.mp hSame
          exact hLast
        · rw [List.concat_eq_append, ← List.cons_append, ← List.append_assoc] at hEq
          exact hEarlier before T' later (List.append_inj' hEq rfl).1
      · intro hAll
        refine ⟨fun before T' later hEq => ?_, hAll ls S [] rfl⟩
        exact hAll before T' (later ++ [S]) (by rw [hEq, List.append_assoc, List.cons_append])

/-- A chain of the search, set by set: each one is initial with the helpers of the
frame that those before it leave. -/
theorem staleChain_iff : StaleChain R A ls ↔ ∀ before S later, ls = before ++ S :: later →
    IsInitialWith R (frameAfter R A before).active (frameAfter R A before).stale S :=
  chain_iff_forall rfl

/-- A chain with one more set is a chain together with a set that can be picked in
the frame at its end. -/
theorem staleChain_concat (S : Set α) : StaleChain R A (ls ++ [S]) ↔ StaleChain R A ls ∧
    IsInitialWith R (frameAfter R A ls).active (frameAfter R A ls).stale S :=
  SearchTree.chain_concat _ _ _ _

/-- The sets of a chain are conflict-free and drawn from what is still active. This
is what is left of admissibility when helpers may defend. -/
theorem StaleChain.layer (h : StaleChain R A ls) {before later : List (Set α)} {S : Set α}
    (hEq : ls = before ++ S :: later) :
    S ⊆ reduct R A (unionOf before) ∧ ConflictFree R S := by
  have hKid := staleChain_iff.mp h before S later hEq
  rw [frameAfter_active] at hKid
  exact ⟨hKid.admissibleWith.subset, hKid.admissibleWith.conflictFree⟩

/-- If all unanswered arguments are attacked later, the union attacks all of its
attackers: one that is not attacked by the set itself is out already, attacked
later, or unanswered. -/
theorem Answered.attacks (hAnswered : Answered R A ls)
    (hLayer : ∀ before S later, ls = before ++ S :: later →
      S ⊆ reduct R A (unionOf before) ∧ ConflictFree R S)
    {a b : α} (ha : a ∈ unionOf ls) (hb : b ∈ A) (hba : R b a) : ∃ c ∈ unionOf ls, R c b := by
  obtain ⟨S, hS, haS⟩ := ha
  obtain ⟨before, later, hEq⟩ := List.append_of_mem hS
  obtain ⟨hSub, hFree⟩ := hLayer before S later hEq
  have hIn : ∀ c, c ∈ unionOf before ∨ c ∈ S ∨ c ∈ unionOf later → c ∈ unionOf ls := by
    intro c hc
    simpa [hEq, or_and_right, exists_or] using hc
  by_contra hNone
  -- Not attacked by the union, so still active when `S` is picked and after it.
  have hFree' : ∀ c, c ∈ unionOf ls → ¬ R c b := fun c hc hcb => hNone ⟨c, hc, hcb⟩
  have hBefore : b ∉ unionOf before := fun hbB => (hSub haS).2.2 b hbB hba
  have hHere : b ∉ S := fun hbS => hFree b hbS a haS hba
  have hOpen : Unanswered R (reduct R A (unionOf before)) S b :=
    ⟨⟨⟨hb, hBefore, fun c hc => hFree' c (hIn c (Or.inl hc))⟩, hHere,
      fun c hc => hFree' c (hIn c (Or.inr (Or.inl hc)))⟩, a, haS, hba⟩
  obtain ⟨T, hT, c, hc, hcb⟩ := hAnswered before S later hEq b hOpen
  exact hFree' c (hIn c (Or.inr (Or.inr ⟨T, hT, hc⟩))) hcb

/-- The union of a chain is admissible exactly if no argument that a set leaves
unanswered stays that way. Conflicts would run from later to earlier sets, and the
last attacker of a member would itself be attacked by a member. -/
theorem StaleChain.admissible_iff (h : StaleChain R A ls) :
    Admissible R A (unionOf ls) ↔ Answered R A ls := by
  have hLayer : ∀ before S later, ls = before ++ S :: later →
      S ⊆ reduct R A (unionOf before) ∧ ConflictFree R S := fun _ _ _ hEq => h.layer hEq
  constructor
  · intro hAdm before S later hEq b hOpen
    obtain ⟨hb, s, hs, hbs⟩ := hOpen
    have hsUnion : s ∈ unionOf ls := ⟨S, by simp [hEq], hs⟩
    obtain ⟨c, ⟨T, hT, hcT⟩, hcb⟩ := hAdm.defended s hsUnion b hb.1.1 hbs
    rw [hEq, List.mem_append, List.mem_cons] at hT
    rcases hT with hT | rfl | hT
    · exact absurd hcb (hb.1.2.2 c ⟨T, hT, hcT⟩)
    · exact absurd hcb (hb.2.2 c hcT)
    · exact ⟨T, hT, c, hcT, hcb⟩
  · intro hAnswered
    have hSub : unionOf ls ⊆ A := by
      intro a ha
      obtain ⟨S, hS, haS⟩ := ha
      obtain ⟨before, later, hEq⟩ := List.append_of_mem hS
      exact ((hLayer before S later hEq).1 haS).1
    refine ⟨hSub, ?_, fun a ha b hb hba => hAnswered.attacks hLayer ha hb hba⟩
    suffices hSuffix : ∀ later before, ls = before ++ later →
        ∀ a ∈ unionOf later, ∀ b ∈ unionOf ls, ¬ R a b from hSuffix ls [] rfl
    intro later
    induction later with
    | nil => simp
    | cons S later ih =>
        intro before hEq a ha b hb hab
        rw [unionOf_cons] at ha
        cases ha with
        | inl haS =>
            -- The attacker of `a` belongs to a later set, where no member attacks.
            obtain ⟨c, ⟨T, hT, hcT⟩, hca⟩ :=
              hAnswered.attacks hLayer hb (hSub ⟨S, by simp [hEq], haS⟩) hab
            have hcUnion : c ∈ unionOf ls := ⟨T, hT, hcT⟩
            have haUnion : a ∈ unionOf ls := ⟨S, by simp [hEq], haS⟩
            obtain ⟨hSLayer, hSFree⟩ := hLayer before S later hEq
            rw [hEq, List.mem_append, List.mem_cons] at hT
            rcases hT with hT | rfl | hT
            · exact (hSLayer haS).2.2 c ⟨T, hT, hcT⟩ hca
            · exact hSFree c hcT a haS hca
            · exact ih (before ++ [S]) (by simp [hEq]) c ⟨T, hT, hcT⟩ a haUnion hca
        | inr haLater => exact ih (before ++ [S]) (by simp [hEq]) a haLater b hb hab

/-- Along the members of an admissible set a chain can be picked that exhausts it,
from any frame in which the set is admissible. The induction is on the number of
members: an initial set lies below what is left of them. -/
theorem exists_staleChain_of_admissible (hFinite : A.Finite) (h : Admissible R A E) :
    ∃ ls, (staleTree R fun _ => True).Chain ⟨A, G⟩ ls ∧ unionOf ls = E := by
  induction hSize : E.ncard using Nat.strong_induction_on generalizing A G E with
  | h n ih =>
      rcases E.eq_empty_or_nonempty with rfl | hNonempty
      · exact ⟨[], trivial, by simp⟩
      · obtain ⟨S, hSE, hS⟩ := exists_isInitialWith (G := G) hFinite hNonempty h.with
        have hFiniteE : E.Finite := hFinite.subset h.subset
        have hLess : (E \ S).ncard < n := by
          rw [← hSize]
          refine Set.ncard_lt_ncard ⟨Set.sdiff_subset, fun hAll => ?_⟩ hFiniteE
          obtain ⟨s, hs⟩ := hS.nonempty
          exact (hAll (hSE hs)).2 hs
        obtain ⟨ls, hChain, hUnion⟩ := ih _ hLess (hFinite.subset reduct_subset) (h.diff hSE)
          (G := (Frame.step R ⟨A, G⟩ S).stale) rfl
        refine ⟨S :: ls, ⟨hS, hChain⟩, ?_⟩
        rw [unionOf_cons, hUnion, Set.union_sdiff_cancel hSE]

end Argumentation
