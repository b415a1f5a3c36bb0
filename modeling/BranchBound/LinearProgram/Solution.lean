import BranchBound.LinearProgram

/-!
# Settings and results of a linear solve

The settings bound the work and set the tolerances.  A result carries its verdict
(`LinearProgram.Status`); the point and its value are meaningful for the verdict `optimal` only,
and the other verdicts fill them with an empty point and a value outside the finite numbers.
-/

namespace BranchBound

/-- How the entering column is chosen among those that improve the objective. -/
inductive PivotRule where
  /-- The most negative reduced cost, ties to the lowest column. -/
  | dantzig
  /-- The lowest column with a negative reduced cost. -/
  | firstProfitable
deriving DecidableEq, Inhabited, Repr

namespace LinearProgram

/-- Limits and tolerances of a linear solve. -/
structure Settings (K : Type) where
  /-- Most pivots allowed, counted over both phases. -/
  maxPivots : Nat
  /-- Choice of the entering column. -/
  pivotRule : PivotRule
  /-- A reduced cost improves if it lies below `-costTol`. -/
  costTol : K
  /-- An entry can be pivoted on if it lies above `pivotTol`. -/
  pivotTol : K
  /-- An artificial objective above `feasTol` proves infeasibility. -/
  feasTol : K
deriving DecidableEq

/-- The settings in force when nothing else is said. -/
def Settings.standard {K : Type} [Scalar K] : Settings K where
  maxPivots := 100
  pivotRule := .dantzig
  costTol := 1e-10
  pivotTol := 1e-10
  feasTol := 1e-9

/-- Verdict of a linear solve. -/
inductive Status where
  | optimal
  | infeasible
  | unbounded
  /-- The pivots ran out before a verdict. -/
  | pivotLimit
deriving DecidableEq, Inhabited, Repr

/-- The verdict by name. -/
def Status.name : Status → String
  | .optimal => "optimal"
  | .infeasible => "infeasible"
  | .unbounded => "unbounded"
  | .pivotLimit => "max_iterations"

/-- A point was found. -/
def Status.isOptimal (s : Status) : Bool := s == .optimal

/-- Result of a linear solve. -/
structure Solution (K : Type) where
  /-- The verdict. -/
  status : Status
  /-- Values of the decision variables; empty unless optimal. -/
  x : List K
  /-- Value of the objective in the program's own sense. -/
  value : K
  /-- Pivots counted over both phases. -/
  pivots : Nat
deriving DecidableEq

namespace Solution

variable {K : Type} [Scalar K]

/-- An optimal point with its value. -/
def optimal (x : List K) (value : K) (pivots : Nat) : Solution K :=
  ⟨.optimal, x, value, pivots⟩

/-- No point satisfies the constraints. -/
def infeasible (pivots : Nat) : Solution K :=
  ⟨.infeasible, [], Scalar.undefined, pivots⟩

/-- The objective improves without bound. -/
def unbounded (sense : Sense) (pivots : Nat) : Solution K :=
  ⟨.unbounded, [], sense.limitValue, pivots⟩

/-- The pivots ran out. -/
def pivotLimit (pivots : Nat) : Solution K :=
  ⟨.pivotLimit, [], Scalar.undefined, pivots⟩

end Solution

end LinearProgram

end BranchBound
