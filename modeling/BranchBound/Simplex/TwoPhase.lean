import BranchBound.Simplex.PhaseOne

/-!
# The two-phase simplex method

The first phase finds a feasible basis, the second drives the program's own objective from there;
both draw on one budget of pivots.  Maximizing `c · x` is done as minimizing `-c · x`, and the
value is read back from the objective row with the sign undone.
-/

namespace BranchBound

namespace Simplex

variable {K : Type} [Scalar K]

/-- Costs of the `numStructural` columns for minimization: the objective, negated for
maximization, and zero for the slacks. -/
def minimizationCosts (p : LinearProgram K) (numStructural : Nat) : List K :=
  let sign : K := if p.sense.isMaximize then -1 else 1
  p.objective.map (fun c => sign * c) ++ List.replicate (numStructural - p.numVars) 0

/-- The result that belongs to the end of the second phase. -/
def conclude (p : LinearProgram K) (s : Stage K) : Ending → Run K (LinearProgram.Solution K)
  | .optimal => do
    let value := match p.sense with
      | .maximize => s.tableau.constant
      | .minimize => -s.tableau.constant
    let x := s.tableau.primalValues p.numVars
    Recorded.report (.violation (p.maxViolation x))
    return .optimal x value s.pivots
  | .unbounded => return .unbounded p.sense s.pivots
  | .pivotLimit => return .pivotLimit s.pivots

/-- Second phase, from a feasible basis found with `pivots` pivots. -/
def phaseTwo (settings : LinearProgram.Settings K) (p : LinearProgram K) (numStructural : Nat)
    (t : Tableau K) (pivots : Nat) : Run K (LinearProgram.Solution K) := do
  let t ← Recorded.ofExcept (t.setObjective (minimizationCosts p numStructural))
  let (s, ending) ← primal settings numStructural ⟨t, pivots⟩
  let solution ← conclude p s ending
  Recorded.report (.finished solution.status s.pivots p.numConstraints p.numVars)
  return solution

/-- Both phases, for a program that has been checked. -/
def twoPhase (settings : LinearProgram.Settings K) (p : LinearProgram K) :
    Run K (LinearProgram.Solution K) := do
  let f := standardForm settings p
  match ← phaseOne settings f with
  | (.feasible t, pivots) => phaseTwo settings p f.numStructural t pivots
  | (.infeasible, pivots) => return .infeasible pivots
  | (.pivotLimit, pivots) => return .pivotLimit pivots

end Simplex

namespace LinearProgram

variable {K : Type} [Scalar K]

/-- Check a program, and solve it if it is sound. -/
def solve (settings : Settings K) (p : LinearProgram K) :
    Except Defect (Simplex.Run K (Solution K)) :=
  p.check.map (fun _ => Simplex.twoPhase settings p)

end LinearProgram

end BranchBound
