import BranchBound.Recorded
import BranchBound.Tableau

/-!
# Primal simplex iteration

One step looks for an entering column and then for a leaving row (`nextMove`); without the first
the basis is optimal, without the second the objective is unbounded.  Only then is the budget
looked at, so a run that needs exactly its budget still reaches its verdict.  The budget left is
what the iteration recurses on.
-/

namespace BranchBound

namespace Simplex

/-- What a linear solve reports. -/
inductive Event (K : Type) where
  /-- A counted pivot, with its number from zero and the column that leaves. -/
  | pivot (number column row leaving : Nat)
  /-- An artificial column is exchanged for a structural one; not counted. -/
  | exchange (row column : Nat)
  /-- The artificial objective seemed unbounded. -/
  | artificialRay
  /-- The artificial objective stays above zero by this much. -/
  | artificialOptimum (amount : K)
  /-- A row without any usable entry is given up. -/
  | redundantRow (row : Nat)
  /-- Largest violation of a constraint at the optimal point. -/
  | violation (amount : K)
  /-- The second phase ended. -/
  | finished (status : LinearProgram.Status) (pivots constraints vars : Nat)

/-- Runs of the simplex method: they report events and can end in a fault. -/
abbrev Run (K : Type) : Type → Type := Recorded (Event K) Fault

/-- How an iteration ends. -/
inductive Ending where
  /-- No candidate column improves the objective. -/
  | optimal
  /-- An improving column has no entry to pivot on. -/
  | unbounded
  /-- The budget is used up. -/
  | pivotLimit
deriving DecidableEq, Repr

/-- The next thing to do at a basis. -/
inductive Move where
  | halt (ending : Ending)
  | pivot (row col : Nat)
deriving DecidableEq, Repr

/-- State of a solve: the tableau and the pivots counted so far. -/
structure Stage (K : Type) where
  /-- The tableau. -/
  tableau : Tableau K
  /-- Counted pivots. -/
  pivots : Nat

variable {K : Type} [Scalar K]

/-- Entering column, then leaving row, with the first `candidates` columns to choose from. -/
def nextMove (settings : LinearProgram.Settings K) (candidates : Nat) (t : Tableau K) :
    Except Fault Move := do
  match ← t.selectEntering settings.pivotRule candidates settings.costTol with
  | none => return .halt .optimal
  | some col =>
    match ← t.selectLeaving col settings.pivotTol with
    | none => return .halt .unbounded
    | some row => return .pivot row col

/-- One counted pivot. -/
def countedPivot (s : Stage K) (row col : Nat) : Run K (Stage K) := do
  let leaving ← Recorded.ofExcept (Tableau.inRange s.tableau.basis[row]?)
  Recorded.report (.pivot s.pivots col row leaving)
  let tableau ← Recorded.ofExcept (s.tableau.pivot row col)
  return ⟨tableau, s.pivots + 1⟩

/-- Pivot until no reduced cost among the first `candidates` columns improves, at most `budget`
times. -/
def iterate (settings : LinearProgram.Settings K) (candidates : Nat) :
    (budget : Nat) → Stage K → Run K (Stage K × Ending)
  | budget, s => do
    match ← Recorded.ofExcept (nextMove settings candidates s.tableau) with
    | .halt ending => return (s, ending)
    | .pivot row col =>
      match budget with
      | 0 => return (s, .pivotLimit)
      | budget + 1 => iterate settings candidates budget (← countedPivot s row col)

/-- Iterate with what is left of the pivots that the settings allow over both phases. -/
def primal (settings : LinearProgram.Settings K) (candidates : Nat) (s : Stage K) :
    Run K (Stage K × Ending) :=
  iterate settings candidates (settings.maxPivots - s.pivots) s

end Simplex

end BranchBound
