import SerialisationSolver.Correctness.Calls
import SerialisationSolver.Argumentation.Searches

/-! The six enumerators as modes of the shared recursion, and the search trees
that the modes implement. -/
namespace SerialisationSolver

open Interaction Interaction.Program Satisfiability Argumentation

/-- `src/ES-AD.cpp`: all initial sets are taken, and the flag tells whether there
was none. -/
def admissibleMode (af : AF) (preferred : Bool) : Mode Bool where
  returns := fun _ _ => none
  candidates := fun fuel active => enumerateInitial fuel af active
  skips := fun _ _ _ => false
  init := true
  mark := fun _ _ _ => false
  prints := fun isMaximal => !preferred || isMaximal

/-- `src/ES-CO.cpp`: all initial sets are taken, and the flag tells whether one of
them was a single unattacked argument. -/
def completeMode (af : AF) : Mode Bool where
  returns := fun _ _ => none
  candidates := fun fuel active => enumerateInitial fuel af active
  skips := fun _ _ _ => false
  init := false
  mark := fun active set hasUnattacked =>
    if set.length = 1 then hasUnattacked || !isAttacked af active (set.getD 0 0) else hasUnattacked
  prints := fun hasUnattacked => !hasUnattacked

/-- `src/ES-GR.cpp`: the candidates are the single active arguments, and those with
an attacker whose bit is set are skipped. -/
def strongAdmissibleMode (af : AF) (grounded : Bool) : Mode Bool where
  returns := fun _ _ => none
  candidates := fun _ active => pure (active.array.map ([·]))
  skips := fun active _ set => isAttacked af active (set.getD 0 0)
  init := true
  mark := fun _ _ _ => false
  prints := fun isMaximal => !grounded || isMaximal

/-- `src/ES-ST.cpp`: a call without active arguments prints at once, and no other
call prints. -/
def stableMode (af : AF) : Mode Unit where
  returns := fun _ active => if active.array.isEmpty then some true else none
  candidates := fun fuel active => enumerateInitial fuel af active
  skips := fun _ _ _ => false
  init := ()
  mark := fun _ _ _ => ()
  prints := fun _ => false

/-- `src/ES-UC.cpp`: initial sets that another one attacks are skipped, and the flag
tells whether a set was taken. -/
def unchallengedMode (af : AF) (maximal : Bool) : Mode Bool where
  returns := fun _ _ => none
  candidates := fun fuel active => enumerateInitial fuel af active
  skips := fun active initialSets set => isChallenged af active initialSets set
  init := true
  mark := fun _ _ _ => false
  prints := fun isMaximal => !maximal || isMaximal

/-- `src/AS-AD.cpp`: the last set decides whether a call prints at once, is given
up, or goes on with the initial sets. -/
def acceptanceMode (af : AF) (argument : Nat) : Mode Unit where
  returns := fun sequence _ => scanLastSet af argument (sequence.getLastD [])
  candidates := fun fuel active => enumerateInitial fuel af active
  skips := fun _ _ _ => false
  init := ()
  mark := fun _ _ _ => ()
  prints := fun _ => false

/-- The enumerators of the source are the shared recursion with their mode. By
induction on the fuel, statement by statement; the other five equations go the same
way. -/
theorem enumerateSequencesAdmissibleFrom_eq (af : AF) (preferred : Bool) (fuel : Nat) :
    enumerateSequencesAdmissibleFrom af preferred fuel =
      search af (admissibleMode af preferred) fuel := by
  induction fuel with
  | zero => rfl
  | succ fuel ih =>
      funext active sequence
      simp only [enumerateSequencesAdmissibleFrom, search, admissibleMode, ih,
        Bool.false_eq_true, if_false]
      rfl

theorem enumerateSequencesCompleteFrom_eq (af : AF) (fuel : Nat) :
    enumerateSequencesCompleteFrom af fuel = search af (completeMode af) fuel := by
  induction fuel with
  | zero => rfl
  | succ fuel ih =>
      funext active sequence
      simp only [enumerateSequencesCompleteFrom, search, completeMode, ih,
        Bool.false_eq_true, if_false]
      apply bind_congr
      intro initialSets
      congr 1
      refine congrArg (forIn initialSets false) (funext fun set => funext fun hasUnattacked => ?_)
      by_cases hSingle : set.length = 1
      · simp only [hSingle, if_true]
      · simp only [hSingle, if_false]

theorem enumerateSequencesStrongAdmissibleFrom_eq (af : AF) (grounded : Bool) (fuel : Nat) :
    enumerateSequencesStrongAdmissibleFrom af grounded fuel =
      search af (strongAdmissibleMode af grounded) fuel := by
  induction fuel with
  | zero => rfl
  | succ fuel ih =>
      funext active sequence
      simp only [enumerateSequencesStrongAdmissibleFrom, search, strongAdmissibleMode, ih,
        pure_bind, List.forIn_map]
      rfl

theorem enumerateSequencesStableFrom_eq (af : AF) (fuel : Nat) :
    enumerateSequencesStableFrom af fuel = search af (stableMode af) fuel := by
  induction fuel with
  | zero => rfl
  | succ fuel ih =>
      funext active sequence
      simp only [enumerateSequencesStableFrom, search, stableMode, ih, Bool.false_eq_true, if_false]
      cases active.array.isEmpty with
      | true => rfl
      | false => rfl

theorem enumerateSequencesUnchallengedFrom_eq (af : AF) (maximal : Bool) (fuel : Nat) :
    enumerateSequencesUnchallengedFrom af maximal fuel =
      search af (unchallengedMode af maximal) fuel := by
  induction fuel with
  | zero => rfl
  | succ fuel ih =>
      funext active sequence
      simp only [enumerateSequencesUnchallengedFrom, search, unchallengedMode, ih]
      rfl

theorem sequencesArgumentAdmissibleFrom_eq (af : AF) (argument : Nat) (fuel : Nat) :
    sequencesArgumentAdmissibleFrom af argument fuel =
      search af (acceptanceMode af argument) fuel := by
  induction fuel with
  | zero => rfl
  | succ fuel ih =>
      funext active sequence
      simp only [sequencesArgumentAdmissibleFrom, search, ih]
      rfl

section Draws

variable (af : AF)

theorem admissibleMode_draws (preferred : Bool) : (admissibleMode af preferred).Draws :=
  fun fuel _ => enumerateInitial_draws fuel

theorem completeMode_draws : (completeMode af).Draws := fun fuel _ => enumerateInitial_draws fuel

/-- The direct scan draws its sets from the array without asking anything; the other
modes leave this to `enumerate_initial`. -/
theorem strongAdmissibleMode_draws (grounded : Bool) :
    (strongAdmissibleMode af grounded).Draws := by
  refine fun _ active => ⟨quiet_nil, ?_⟩
  rintro sets ⟨⟩ set hSet a ha
  obtain ⟨b, hb, rfl⟩ := List.mem_map.mp hSet
  rw [List.mem_singleton.mp ha]
  exact hb

theorem stableMode_draws : (stableMode af).Draws := fun fuel _ => enumerateInitial_draws fuel

theorem unchallengedMode_draws (maximal : Bool) : (unchallengedMode af maximal).Draws :=
  fun fuel _ => enumerateInitial_draws fuel

theorem acceptanceMode_draws (argument : Nat) : (acceptanceMode af argument).Draws :=
  fun fuel _ => enumerateInitial_draws fuel

end Draws

/-- What `get_reduct` returns along a search from the full set: valid, with one bit
for each argument. Whether the bits are exact is left open. -/
structure Reached (af : AF) (active : IterableBitSet) : Prop where
  valid : active.Valid af
  length : active.bitset.length = af.args

theorem full_reached (af : AF) : Reached af (.full af.args) :=
  ⟨full_valid af, List.length_replicate⟩

section Reached

variable {af : AF} {active : IterableBitSet} (hReached : Reached af active)
include hReached

/-- A reduct by active arguments is reached from there, so that the property holds
at every call. -/
theorem Reached.getReduct (h : af.WellFormed) {set : List Nat}
    (hSet : ∀ a ∈ set, a ∈ active.array) :
    Reached af (getReduct af active set) :=
  ⟨getReduct_valid h hReached.valid hSet, getReduct_bitset_length hReached.valid⟩

theorem Reached.lt_args {x : Nat} (hx : active.test x = true) : x < af.args := by
  by_contra hNot
  have hOut : active.bitset.length ≤ x := by
    rw [hReached.length]
    omega
  simp [IterableBitSet.test, hOut] at hx

/-- In a framework whose variables are all in range, they are so at every call. -/
theorem Reached.literalsFit (hSmall : 2 * af.args < 2 ^ 31) : LiteralsFit af active := by
  intro x hx
  have hLess := hReached.lt_args hx
  omega

end Reached

/-- The enumerators of the program with their flags and the query argument.
Statements about all of them quantify over this type. -/
inductive Enumerator where
  | admissible (preferred : Bool)
  | complete
  | strongAdmissible (grounded : Bool)
  | stable
  | unchallenged (maximal : Bool)
  | argumentAdmissible (argument : Nat)

/-- The call that starts an enumerator, as `main` makes it. Here the active
arguments are still free; the statements about runs start from the full set. -/
def Enumerator.start (fuel : Nat) (af : AF) (active : IterableBitSet) : Enumerator → M Unit
  | .admissible preferred => enumerateSequencesAdmissible fuel af active preferred
  | .complete => enumerateSequencesComplete fuel af active
  | .strongAdmissible grounded => enumerateSequencesStrongAdmissible fuel af active grounded
  | .stable => enumerateSequencesStable fuel af active
  | .unchallenged maximal => enumerateSequencesUnchallenged fuel af active maximal
  | .argumentAdmissible argument => sequencesArgumentAdmissible fuel af active argument

end SerialisationSolver
