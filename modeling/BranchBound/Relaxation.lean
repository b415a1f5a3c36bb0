import BranchBound.Search.Bound
import BranchBound.Simplex.TwoPhase

/-!
# Relaxations of nodes

A node's relaxation is the linear program with the node's bounds added.  The search does not care
how it is solved: a `Backend` answers for a list of bounds, and may keep a state between answers.
-/

namespace BranchBound

/-- Why an integer program is refused. -/
inductive Refusal where
  /-- Its relaxation has a defect. -/
  | defect (cause : LinearProgram.Defect)
  /-- A reason given from outside, in its own words. -/
  | reported (text : String)
deriving DecidableEq

/-- What makes a search fail. -/
inductive SearchError where
  /-- The program is not sound. -/
  | invalidProblem (refusal : Refusal)
  /-- The root relaxation has no optimum, so the program may have none either. -/
  | unbounded
  /-- A relaxation was refused. -/
  | relaxationFailed (defect : LinearProgram.Defect)
  /-- The solver broke down. -/
  | worker (text : String)
deriving DecidableEq

namespace Refusal

/-- The refusal in words. -/
def message : Refusal → String
  | .defect cause => cause.message
  | .reported text => text

end Refusal

namespace SearchError

/-- The failure in words. -/
def message : SearchError → String
  | .invalidProblem refusal => "Invalid problem: " ++ refusal.message
  | .unbounded => "Root LP relaxation is unbounded"
  | .relaxationFailed defect => "Relaxation failed: " ++ defect.message
  | .worker text => "Worker failed: " ++ text

end SearchError

/-- Why a computation has no result: a misuse without a defined answer, or a failure. -/
inductive Breakdown where
  | fault (fault : Fault)
  | failed (error : SearchError)
deriving DecidableEq

namespace Relaxation

/-- Verdict of a relaxation, as the search sees it. -/
inductive Verdict where
  | optimal
  | infeasible
  | unbounded
  /-- The pivots ran out. -/
  | pivotLimit
deriving DecidableEq, Inhabited, Repr

/-- The verdict that a linear status stands for. -/
def Verdict.ofStatus : LinearProgram.Status → Verdict
  | .optimal => .optimal
  | .infeasible => .infeasible
  | .unbounded => .unbounded
  | .pivotLimit => .pivotLimit

/-- Answer to a relaxation. -/
structure Answer (K : Type) where
  /-- The verdict that steers the search. -/
  verdict : Verdict
  /-- The status of the linear solve, kept in the node. -/
  status : LinearProgram.Status
  /-- The point, empty unless optimal. -/
  x : List K
  /-- Its value, only if optimal. -/
  value : Option K
  /-- Pivots spent. -/
  pivots : Nat
deriving DecidableEq

/-- The answer that a linear solution gives: its value counts only if it is optimal. -/
def Answer.ofSolution {K : Type} (s : LinearProgram.Solution K) : Answer K where
  verdict := .ofStatus s.status
  status := s.status
  x := s.x
  value := if s.status.isOptimal then some s.value else none
  pivots := s.pivots

/-- A solver of relaxations with a state of type `σ`. -/
structure Backend (K σ : Type) where
  /-- Solve the relaxation with the given bounds. -/
  solve : σ → List (Bound K) → Recorded (Simplex.Event K) Breakdown (Answer K × σ)
  /-- Number of variables. -/
  numVars : σ → Nat
  /-- Number of constraints without bounds. -/
  numConstraints : σ → Nat
  /-- Number of relaxations solved. -/
  numSolves : σ → Nat

variable {K : Type} [Scalar K]

/-- The program with one more row per bound. -/
def withBounds (p : LinearProgram K) (bounds : List (Bound K)) :
    Except Fault (LinearProgram K) :=
  bounds.foldlM
    (fun p' b => (b.toRow p.numVars).map (fun (row, limit) => p'.pushRow row limit)) p

/-- Solve a program under bounds from scratch. -/
def solveBounded (settings : LinearProgram.Settings K) (p : LinearProgram K)
    (bounds : List (Bound K)) : Recorded (Simplex.Event K) Breakdown (Answer K) :=
  match withBounds p bounds with
  | .error fault => Recorded.stop (.fault fault)
  | .ok bounded =>
    match bounded.solve settings with
    | .error defect => Recorded.stop (.failed (.relaxationFailed defect))
    | .ok run => do
      let solution ← run.mapStop Breakdown.fault
      return .ofSolution solution

/-- The backend that solves every relaxation from scratch by the simplex method.  Its state is
the number of relaxations solved; a refused one does not count. -/
def simplexBackend (settings : LinearProgram.Settings K) (p : LinearProgram K) :
    Backend K Nat where
  solve solves bounds := do
    let answer ← solveBounded settings p bounds
    return (answer, solves + 1)
  numVars _ := p.numVars
  numConstraints _ := p.numConstraints
  numSolves solves := solves

end Relaxation

end BranchBound
