import SerialisationSolver.Correctness.Answers
import SerialisationSolver.Correctness.Framework
import SerialisationSolver.Correctness.Meanings

/-! Frameworks that are answered rightly, in every run. -/
namespace SerialisationSolver

open Argumentation

/-- Where attackers of one argument are in conflict and the variables fit, every
enumerator prints in every run what its semantics asks for. -/
theorem answers_of_coattackers {af : AF} (h : af.WellFormed) (hConflict : af.CoattackersConflict)
    {enumerator : Enumerator} (hFits : enumerator.Fits af) (run : CorrectRun af enumerator) :
    printedSets run.trace = enumerator.meant af := by
  rw [run.printedSets_of_fits h hFits, Enumerator.reported_eq_meant h hConflict]

/-- Two arguments that attack each other and together a third one, so that its two
attackers are in conflict. -/
def rivals : AF := ⟨3, [[1], [0], [0, 1]], [[1, 2], [0, 2], []]⟩

theorem rivals_answers : printedSets (CorrectRun.ofBruteForce rivals .complete).trace =
    Enumerator.meant rivals .complete := by
  have hBuild : AF.build 3 [(0, 1), (1, 0), (0, 2), (1, 2)] = .ok rivals := by rfl
  have hFits : Enumerator.Fits rivals .complete := show 2 * rivals.args < 2 ^ 31 by decide
  exact answers_of_coattackers (AF.build_spec (by decide) hBuild).1 (by decide) hFits _

/-- Where attacks are mutual and the variables fit, so do the searches that look for
initial sets only. Arguments do become stale there, but a set answers its attackers
itself. -/
theorem answers_of_symmetric {af : AF} (h : af.WellFormed) (hSymmetric : af.Symmetric)
    {enumerator : Enumerator} (hPlain : enumerator.Plain) (hFits : enumerator.Fits af)
    (run : CorrectRun af enumerator) :
    printedSets run.trace = enumerator.meant af := by
  rw [run.printedSets_of_fits h hFits, hPlain.reported_eq_meant (hSymmetric.leavesNoneOpen h)]

/-- Two arguments that attack each other, so that each of them alone is a stable
set. -/
def duel : AF := ⟨2, [[1], [0]], [[1], [0]]⟩

theorem duel_answers : printedSets (CorrectRun.ofBruteForce duel .stable).trace =
    Enumerator.meant duel .stable := by
  have hBuild : AF.build 2 [(0, 1), (1, 0)] = .ok duel := by rfl
  have hPlain : Enumerator.Plain .stable := trivial
  have hFits : Enumerator.Fits duel .stable := show 2 * duel.args < 2 ^ 31 by decide
  exact answers_of_symmetric (AF.build_spec (by decide) hBuild).1 (by decide) hPlain hFits _

end SerialisationSolver
