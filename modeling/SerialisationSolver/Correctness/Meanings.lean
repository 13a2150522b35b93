import SerialisationSolver.Correctness.Setups
import SerialisationSolver.Argumentation.Coattackers

/-! What the enumerators are meant to report, and where they do: on the sequences in
which no argument is attacked by two sets, and in two kinds of frameworks. If of two
attackers of one argument one always attacks the other, all sequences are of this
sort. If all attacks are mutual there are stale bits, but they mislead only those
enumerators that look for unattacked arguments. -/
namespace SerialisationSolver

open Argumentation

/-- Of two attackers of one argument, one attacks the other. As a condition on the
lists of a framework this can be decided. -/
def AF.CoattackersConflict (af : AF) : Prop :=
  ∀ c < af.args, ∀ x ∈ af.attackersOf c, ∀ y ∈ af.attackersOf c,
    x = y ∨ af.Attacks x y ∨ af.Attacks y x

instance (af : AF) : Decidable af.CoattackersConflict :=
  inferInstanceAs (Decidable (∀ c < af.args, ∀ x ∈ af.attackersOf c, ∀ y ∈ af.attackersOf c,
    x = y ∨ af.Attacks x y ∨ af.Attacks y x))

/-- All attacks are mutual, as in the frameworks that come from conflicts without a
direction. -/
def AF.Symmetric (af : AF) : Prop := ∀ b < af.args, ∀ a ∈ af.attackersOf b, af.Attacks b a

instance (af : AF) : Decidable af.Symmetric :=
  inferInstanceAs (Decidable (∀ b < af.args, ∀ a ∈ af.attackersOf b, af.Attacks b a))

/-- What the semantics of an enumerator asks for, in terms of serialisation
sequences, listings and extensions. Stale arguments play no part in it. -/
def Enumerator.meant (af : AF) : Enumerator → Set (List (Set Nat))
  | .admissible false => {ls | IsSerialisation af.Attacks af.arguments ls}
  | .admissible true => {ls | IsSerialisation af.Attacks af.arguments ls ∧
      Preferred af.Attacks af.arguments (unionOf ls)}
  | .complete => {ls | IsSerialisation af.Attacks af.arguments ls ∧
      Complete af.Attacks af.arguments (unionOf ls)}
  | .strongAdmissible false => {ls | ∃ xs, Listing af.Attacks af.arguments xs ∧ ls = xs.map ({·})}
  | .strongAdmissible true => {ls | (∃ xs, Listing af.Attacks af.arguments xs ∧ ls = xs.map ({·})) ∧
      unionOf ls = grounded af.Attacks af.arguments}
  | .stable => {ls | IsSerialisation af.Attacks af.arguments ls ∧
      Stable af.Attacks af.arguments (unionOf ls)}
  | .unchallenged false => {ls | IsUnchallenged af.Attacks af.arguments ls}
  | .unchallenged true => {ls | IsMaximalUnchallenged af.Attacks af.arguments ls}
  | .argumentAdmissible argument => {ls | IsSerialisation af.Attacks af.arguments ls ∧
      ∃ S ∈ ls.getLast?, argument ∈ S}

/-- The enumerators that take every initial set they find and look for nothing else.
Those that look for unattacked or unchallenged sets are misled by stale bits in
further ways. -/
def Enumerator.Plain : Enumerator → Prop
  | .admissible _ | .stable | .argumentAdmissible _ => True
  | .complete | .strongAdmissible _ | .unchallenged _ => False

section

variable {af : AF} (h : af.WellFormed)
include h

theorem AF.attacks_mem_arguments (a b : Nat) (hAttack : af.Attacks a b) : b ∈ af.arguments :=
  (h.attacks_lt hAttack).2

theorem AF.CoattackersConflict.attacks (hConflict : af.CoattackersConflict) :
    Argumentation.CoattackersConflict af.Attacks :=
  fun x y c hx hy => hConflict c (h.attacks_lt hx).2 x hx y hy

omit h in
/-- If no chain leaves an attacker open, a plain search reports what it is meant to:
its chains are the serialisation sequences, and its last frames say of their unions
what they should. -/
theorem Enumerator.Plain.reported_eq_meant (hNone : LeavesNoneOpen af.Attacks af.arguments)
    {enumerator : Enumerator} (hPlain : enumerator.Plain) :
    enumerator.reported af = enumerator.meant af := by
  have hFinite := af.arguments_finite
  have hChains := (staleChain_iff_isSerialisation hFinite).mpr hNone
  ext ls
  cases enumerator with
  | complete => exact hPlain.elim
  | strongAdmissible => exact hPlain.elim
  | unchallenged => exact hPlain.elim
  | admissible preferred =>
      rw [mem_reported_admissible]
      cases preferred with
      | false => simp [Enumerator.meant, hChains]
      | true =>
          rw [eq_self, true_imp_iff, Enumerator.meant, Set.mem_ofPred_eq, ← hChains]
          refine and_congr_right fun hChain => ?_
          exact hChain.exhausted_iff_preferred hFinite (hNone.answered hChain) fun _ =>
            hNone.answered
  | stable =>
      rw [mem_reported_stable, Enumerator.meant, Set.mem_ofPred_eq, ← hChains]
      exact and_congr_right fun hChain => hChain.empty_iff_stable (hNone.answered hChain)
  | argumentAdmissible argument =>
      rw [Enumerator.reported, mem_reported_acceptanceTree, hChains]
      rfl

theorem AF.Symmetric.leavesNoneOpen (hSymmetric : af.Symmetric) :
    LeavesNoneOpen af.Attacks af.arguments :=
  leavesNoneOpen_of_symmetric fun a b hAttack => hSymmetric b (h.attacks_lt hAttack).2 a hAttack

omit h in
/-- What the unchallenged search reports: its chains, and if they are to be maximal,
those that no set prolongs. -/
theorem Enumerator.mem_reported_unchallenged {maximal : Bool} {ls : List (Set Nat)} :
    ls ∈ Enumerator.reported af (.unchallenged maximal) ↔
      UnchallengedChain af.Attacks af.arguments ls ∧
      (maximal = true →
        ∀ S, ¬ (IsInitialWith af.Attacks (frameAfter af.Attacks af.arguments ls).active
        (frameAfter af.Attacks af.arguments ls).stale S ∧
          (frameAfter af.Attacks af.arguments ls).Unchallenged af.Attacks S)) := by
  have hChain := SearchTree.chain_congr (T := unchallengedTree af.Attacks (maximal = true))
    (U := unchallengedTree af.Attacks True) rfl (s := ⟨af.arguments, ∅⟩) (fun _ _ _ => Iff.rfl) ls
  exact and_congr_left fun _ => hChain

/-- A sequence in which no argument is attacked by two sets is reported by a search
exactly if it should be. The statement is about single sequences, whatever the rest
of the framework is like. -/
theorem Enumerator.mem_reported_iff (enumerator : Enumerator) {ls : List (Set Nat)}
    (hApart : AttacksApart af.Attacks ls) : ls ∈ enumerator.reported af ↔
      ls ∈ enumerator.meant af := by
  have hRange := AF.attacks_mem_arguments h
  have hFinite := af.arguments_finite
  have hSource : ∀ a b, af.Attacks a b → a ∈ af.arguments :=
    fun _ _ hAttack => (h.attacks_lt hAttack).1
  cases enumerator with
  | admissible preferred =>
      rw [mem_reported_admissible]
      cases preferred with
      | false => simp [meant, hApart.staleChain_iff hRange]
      | true =>
          rw [eq_self, true_imp_iff, meant, Set.mem_ofPred_eq, ← hApart.staleChain_iff hRange]
          exact and_congr_right fun hChain => hApart.exhausted_iff hRange hFinite hChain
  | complete =>
      rw [mem_reported_complete, meant, Set.mem_ofPred_eq, ← hApart.staleChain_iff hRange]
      refine and_congr_right fun hChain => ?_
      exact hChain.attacked_iff_complete (hApart.idle hRange hChain) (hApart.answered hRange hChain)
  | stable =>
      rw [mem_reported_stable, meant, Set.mem_ofPred_eq, ← hApart.staleChain_iff hRange]
      exact and_congr_right fun hChain => hChain.empty_iff_stable (hApart.answered hRange hChain)
  | argumentAdmissible argument =>
      rw [reported, mem_reported_acceptanceTree, hApart.staleChain_iff hRange]
      rfl
  | strongAdmissible isGrounded =>
      rw [mem_reported_strongAdmissible]
      cases isGrounded with
      | false => simp [meant, hApart.unattackedChain_iff hSource]
      | true =>
          rw [meant, Set.mem_ofPred_eq, ← hApart.unattackedChain_iff hSource, eq_self, true_imp_iff]
          refine and_congr_right fun hChain => ?_
          exact hChain.attacked_iff_grounded (hApart.idle hRange hChain.staleChain)
  | unchallenged maximal =>
      rw [mem_reported_unchallenged]
      cases maximal with
      | false => simp [meant, hApart.unchallengedChain_iff hRange]
      | true =>
          rw [eq_self, true_imp_iff]
          refine Iff.trans (and_congr_right fun hChain => ?_)
            (and_congr_left fun _ => hApart.unchallengedChain_iff hRange)
          exact hApart.maximal_iff hRange hChain

omit h in
/-- All that is reported follows a chain, whichever enumerator it comes from. -/
theorem Enumerator.staleChain_of_reported {enumerator : Enumerator} {ls : List (Set Nat)}
    (hReported : ls ∈ enumerator.reported af) : StaleChain af.Attacks af.arguments ls := by
  cases enumerator with
  | admissible => exact (mem_reported_admissible.mp hReported).1
  | complete => exact (mem_reported_complete.mp hReported).1
  | strongAdmissible => exact (mem_reported_strongAdmissible.mp hReported).1.staleChain
  | stable => exact (mem_reported_stable.mp hReported).1
  | unchallenged => exact (mem_reported_unchallenged.mp hReported).1.staleChain
  | argumentAdmissible => exact (mem_reported_acceptanceTree.mp hReported).1

/-- Where attackers of one argument are in conflict, what is meant attacks nothing
twice, since its unions are free of conflicts. -/
theorem AF.CoattackersConflict.attacksApart_of_meant (hConflict : af.CoattackersConflict)
    {enumerator : Enumerator} {ls : List (Set Nat)} (hMeant : ls ∈ enumerator.meant af) :
    AttacksApart af.Attacks ls := by
  have hCo := hConflict.attacks h
  have hRange := AF.attacks_mem_arguments h
  have hPlain : IsSerialisation af.Attacks af.arguments ls → AttacksApart af.Attacks ls :=
    fun hSerialisation => hSerialisation.attacksApart hCo hRange
  have hListed : (∃ xs, Listing af.Attacks af.arguments xs ∧ ls = xs.map ({·})) →
      AttacksApart af.Attacks ls := by
    rintro ⟨xs, hListing, rfl⟩
    exact hListing.attacksApart hCo
  have hUnchallenged : IsUnchallenged af.Attacks af.arguments ls → AttacksApart af.Attacks ls :=
    fun hAll => hPlain fun before S later hEq => (hAll before S later hEq).1
  rcases enumerator with (_ | _) | _ | (_ | _) | _ | (_ | _) | _
  · exact hPlain hMeant
  · exact hPlain hMeant.1
  · exact hPlain hMeant.1
  · exact hListed hMeant
  · exact hListed hMeant.1
  · exact hPlain hMeant.1
  · exact hUnchallenged hMeant
  · exact hUnchallenged hMeant.1
  · exact hPlain hMeant.1

/-- If attackers of one argument are in conflict, every search reports what it is
meant to, as then all sequences in question attack apart. -/
theorem Enumerator.reported_eq_meant (hConflict : af.CoattackersConflict)
    (enumerator : Enumerator) :
    enumerator.reported af = enumerator.meant af := by
  have hRange := AF.attacks_mem_arguments h
  ext ls
  constructor
  · intro hReported
    have hApart := (staleChain_of_reported hReported).attacksApart (hConflict.attacks h) hRange
    exact (enumerator.mem_reported_iff h hApart).mp hReported
  · intro hMeant
    exact (enumerator.mem_reported_iff h (hConflict.attacksApart_of_meant h hMeant)).mpr hMeant

end

end SerialisationSolver
