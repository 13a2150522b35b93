import SerialisationSolver.Interaction.Interrupt
import SerialisationSolver.Correctness.Main

/-! A solver that gives up answers neither 10 nor 20. The class around it then ends
the process, so that every algorithm stops at once. -/
namespace SerialisationSolver

open Interaction Interaction.Program Satisfiability

/-- The solver returns without a result, as it does when it is interrupted or runs
into a limit. -/
def GivesUp (answer : Answer) : Prop := answer.res ≠ 10 ∧ answer.res ≠ 20

/-- Every answer is correct, unless the solver gives up. It may give up once and
answer later questions. -/
def CorrectUnlessGivenUp {State : Type} (oracle : SatOracle State) : Prop :=
  ∀ state query, ¬ GivesUp (oracle state query).1 → Correct query (oracle state query).1

/-- The class exits as soon as the answer is neither of the two codes it knows.
There is no other place where answers come in. -/
theorem CadicalSatSolver.solve_stopsOn (s : CadicalSatSolver) : s.solve.StopsOn GivesUp .exit := by
  have hVal : ∀ (solver : Cadical.Solver) lit, (solver.val lit).Immediate := by
    intro solver lit
    by_cases hState : solver.state = .satisfied
    · exact Or.inl ⟨_, if_pos hState⟩
    · exact Or.inr ⟨_, if_neg hState⟩
  unfold solve Cadical.Solver.solve
  by_cases hState : s.solver.state = .adding
  · rw [if_pos hState]
    trivial
  · rw [if_neg hState]
    simp only [Program.request, ask_bind, done_bind, pure_bind]
    intro answer
    constructor
    · rintro ⟨hSat, hUnsat⟩
      exact if_pos (by simp [satV, unsatV, hSat, hUnsat])
    · refine (Immediate.ite ?_ (.ite (.ite ?_ ?_) ?_)).stopsOn
      · exact Or.inr ⟨_, rfl⟩
      · exact Or.inr ⟨_, rfl⟩
      · exact (Immediate.mapM fun i => hVal _ _).bind fun vals => Or.inl ⟨_, rfl⟩
      · exact Or.inl ⟨_, rfl⟩

section

variable {af : AF} {active : IterableBitSet}

theorem minimizeModel_stopsOn (fuel : Nat) (s : CadicalSatSolver) (foundExtension : Bool) :
    (minimizeModel af active fuel s foundExtension).StopsOn GivesUp .exit := by
  induction fuel generalizing s foundExtension with
  | zero => trivial
  | succ fuel ih =>
      refine s.solve_stopsOn.bind fun ⟨sat, solver⟩ => ?_
      dsimp only
      split_ifs
      · trivial
      · exact (excludeModel_immediate solver).stopsOn.bind fun next => ih next true

theorem enumerateModels_stopsOn (fuel : Nat) (s : CadicalSatSolver) (result : List (List Nat)) :
    (enumerateModels af active fuel s result).StopsOn GivesUp .exit := by
  induction fuel generalizing s result with
  | zero => trivial
  | succ fuel ih =>
      refine (minimizeModel_stopsOn (fuel + 1) s false).bind fun ⟨s', foundExtension⟩ => ?_
      cases foundExtension with
      | false => trivial
      | true => exact StopsOn.log (ih s' _)

/-- `enumerate_initial` stops in the middle of whichever of its loops is asking.
What it has pushed by then is on the record. -/
theorem enumerateInitial_stopsOn (fuel : Nat) :
    (enumerateInitial fuel af active).StopsOn GivesUp .exit := by
  unfold enumerateInitial
  generalize toInt32 af.args = nArgs
  split_ifs
  · trivial
  · refine (new_immediate nArgs).stopsOn.bind fun s => ?_
    exact (admissibleNonempty_immediate s).stopsOn.bind fun s => enumerateModels_stopsOn fuel s []

end

section Recursion

variable {Flag : Type} {af : AF} {mode : Mode Flag}

/-- A search stops in the call that is finding its sets, and so do all calls above
it. -/
theorem search_stopsOn (hCandidates : ∀ fuel active,
    (mode.candidates fuel active).StopsOn GivesUp .exit)
    (fuel : Nat) (active : IterableBitSet) (sequence : Sequence) :
    (search af mode fuel active sequence).StopsOn GivesUp .exit := by
  induction fuel generalizing active sequence with
  | zero => trivial
  | succ fuel ih =>
      rw [search]
      rcases mode.returns sequence active with _ | (_ | _)
      · refine (hCandidates (fuel + 1) active).bind fun sets => ?_
        refine (StopsOn.forIn fun set flag => ?_).bind fun flag => ?_
        · split_ifs
          · trivial
          · exact StopsOn.log ((ih _ _).bind fun _ => trivial)
        · dsimp only
          split_ifs <;> trivial
      · trivial
      · trivial

theorem Enumerator.start_stopsOn (h : af.WellFormed) (enumerator : Enumerator) (fuel : Nat) :
    (enumerator.start fuel af (.full af.args)).StopsOn GivesUp .exit := by
  rw [(enumerator.setup h).start_eq]
  apply search_stopsOn
  intro fuel active
  cases enumerator with
  | strongAdmissible => trivial
  | admissible => exact enumerateInitial_stopsOn fuel
  | complete => exact enumerateInitial_stopsOn fuel
  | stable => exact enumerateInitial_stopsOn fuel
  | unchallenged => exact enumerateInitial_stopsOn fuel
  | argumentAdmissible => exact enumerateInitial_stopsOn fuel

end Recursion

/-- An algorithm inside `main` ends as if the solver had not given up, or with a
message after some of what it would have printed. The message is the one that the
class writes before it exits. -/
theorem inShell_interrupted {program : M Unit} (h : program.StopsOn GivesUp .exit) {State : Type}
    (oracle : SatOracle State) (state : State) :
    let shell := inShell program >>= fun _ => finish
    shell.run oracle state = shell.run (repair GivesUp bruteForce oracle) state ∨
    ((shell.run oracle state).result = .error (.exit 1) ∧
      stderr (shell.run oracle state).trace = "Problem\n".toList ∧
      ∃ sequences, sequences <+: printed (program.run
        (repair GivesUp bruteForce oracle) state).trace ∧
        stdout (shell.run oracle state).trace =
          Delimited.writeEach ',' Output.printSequence sequences) := by
  dsimp only
  simp only [run_bind, inShell, run_translate]
  rcases h.run bruteForce oracle state with
    hSame | ⟨hResult, before, query, answer, hTrace, hPrefix⟩
  · left
    rw [hSame]
    rcases program.run (repair GivesUp bruteForce oracle) state with ⟨fault | result, after, trace⟩
    · rfl
    · rfl
  · right
    rw [hResult, hTrace]
    refine ⟨rfl, ?_, printed before, hPrefix.filterMap _, ?_⟩
    · simp only [translateOut, parting]
      rw [stderr_append, stderr_translateTrace]
      simp [ended]
    · have hPrinted : printed (before ++ [.asked query answer]) = printed before := by
        rw [printed_append]
        exact List.append_nil _
      simp only [translateOut, parting]
      rw [stdout_append, stdout_translateTrace, hPrinted]
      simp [ended]

end SerialisationSolver
