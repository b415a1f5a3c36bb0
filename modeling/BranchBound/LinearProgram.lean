import BranchBound.Sense

/-!
# Linear programs in inequality form

Optimize `c · x` subject to `A x ≤ b` and `x ≥ 0`.  A program is plain data and may be malformed:
`check` tells whether its parts fit together and are finite, and names the first thing that is
wrong.  A row with `≥` is given by negating both of its sides.
-/

namespace BranchBound

/-- Optimize `objective · x` over `x ≥ 0` with `rows[i] · x ≤ limits[i]`. -/
structure LinearProgram (K : Type) where
  /-- Coefficients of the objective; their number is the number of variables. -/
  objective : List K
  /-- Coefficients of the constraints. -/
  rows : List (List K)
  /-- Right-hand sides of the constraints. -/
  limits : List K
  /-- Direction of optimization. -/
  sense : Sense
deriving DecidableEq

namespace LinearProgram

/-- A part of a program that can hold a value that is not finite. -/
inductive Part where
  | objective
  | rows
  | limits
deriving DecidableEq

/-- How the dimensions of a program can disagree. -/
inductive Mismatch where
  /-- The objective is empty. -/
  | noVariables
  /-- The number of rows differs from the number of right-hand sides. -/
  | rowCount (rows limits : Nat)
  /-- A row has the wrong number of coefficients. -/
  | rowLength (row found expected : Nat)
  /-- A disagreement reported from outside, in its own words. -/
  | reported (text : String)
deriving DecidableEq

/-- What makes a program unfit to be solved. -/
inductive Defect where
  | dimension (mismatch : Mismatch)
  | nonFinite (part : Part)
deriving DecidableEq

namespace Part

/-- The letter a part goes by. -/
def letter : Part → String
  | .objective => "c"
  | .rows => "A"
  | .limits => "b"

end Part

namespace Mismatch

/-- The disagreement in words. -/
def message : Mismatch → String
  | .noVariables => "objective has no coefficients"
  | .rowCount rows limits => s!"A has {rows} rows, b has {limits} entries"
  | .rowLength row found expected =>
      s!"row {row} has {found} coefficients, expected {expected}"
  | .reported text => text

end Mismatch

namespace Defect

/-- The defect in words. -/
def message : Defect → String
  | .dimension mismatch => "Invalid dimensions: " ++ mismatch.message
  | .nonFinite part => "Non-finite value in " ++ part.letter

end Defect

variable {K : Type}

/-- Number of decision variables. -/
def numVars (p : LinearProgram K) : Nat := p.objective.length

/-- Number of constraints. -/
def numConstraints (p : LinearProgram K) : Nat := p.limits.length

/-- Add the constraint `coefs · x ≤ limit` after the others. -/
def pushRow (p : LinearProgram K) (coefs : List K) (limit : K) : LinearProgram K :=
  { p with rows := p.rows ++ [coefs], limits := p.limits ++ [limit] }

/-- The first row, counted from `index`, that has not exactly `n` coefficients. -/
def misfit? (n : Nat) : Nat → List (List K) → Option Mismatch
  | _, [] => none
  | index, row :: rest =>
      if row.length = n then misfit? n (index + 1) rest
      else some (.rowLength index row.length n)

/-- The first disagreement between the dimensions of the parts. -/
def mismatch? (p : LinearProgram K) : Option Mismatch :=
  if p.numVars = 0 then some .noVariables
  else if p.rows.length ≠ p.numConstraints then
    some (.rowCount p.rows.length p.numConstraints)
  else misfit? p.numVars 0 p.rows

variable [Scalar K]

/-- The first part that holds a value that is not finite. -/
def nonFinite? (p : LinearProgram K) : Option Part :=
  if !p.objective.all Scalar.isFinite then some .objective
  else if !p.rows.all (fun row => row.all Scalar.isFinite) then some .rows
  else if !p.limits.all Scalar.isFinite then some .limits
  else none

/-- Dimensions first, then finiteness; the first defect found. -/
def check (p : LinearProgram K) : Except Defect Unit :=
  match p.mismatch? with
  | some mismatch => .error (.dimension mismatch)
  | none =>
    match p.nonFinite? with
    | some part => .error (.nonFinite part)
    | none => .ok ()

/-- Largest excess of a row over its limit at `x`, zero when all rows hold. -/
def maxViolation (p : LinearProgram K) (x : List K) : K :=
  (List.zipWith (fun row limit => Scalar.larger (Scalar.dot row x - limit) 0) p.rows p.limits).foldl
    Scalar.larger 0

end LinearProgram

end BranchBound
