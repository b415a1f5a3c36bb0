import BranchBound.LinearProgram

/-!
# Integer programs

An integer program is a linear program whose variables must also be whole numbers.  Dropping that
demand gives its relaxation, and the relaxation is all the data there is.
-/

namespace BranchBound

/-- Optimize a linear objective over the whole-number points of a linear program. -/
structure IntegerProgram (K : Type) where
  /-- The program without the demand for whole numbers. -/
  relaxation : LinearProgram K
deriving DecidableEq

namespace IntegerProgram

variable {K : Type}

/-- From the parts of the relaxation. -/
def ofParts (objective : List K) (rows : List (List K)) (limits : List K) (maximize : Bool) :
    IntegerProgram K :=
  ⟨⟨objective, rows, limits, Sense.ofMaximize maximize⟩⟩

/-- Number of variables. -/
def numVars (p : IntegerProgram K) : Nat := p.relaxation.numVars

/-- Number of constraints, without bounds. -/
def numConstraints (p : IntegerProgram K) : Nat := p.relaxation.numConstraints

/-- Direction of optimization. -/
def sense (p : IntegerProgram K) : Sense := p.relaxation.sense

/-- Coefficients of the objective. -/
def objective (p : IntegerProgram K) : List K := p.relaxation.objective

/-- A program is made up of its own parts. -/
theorem ofParts_parts (p : IntegerProgram K) :
    ofParts p.objective p.relaxation.rows p.relaxation.limits p.sense.isMaximize = p := by
  obtain ⟨⟨_, _, _, sense⟩⟩ := p
  cases sense <;> rfl

variable [Scalar K]

/-- An integer program is sound if its relaxation is. -/
def check (p : IntegerProgram K) : Except LinearProgram.Defect Unit := p.relaxation.check

/-- Every coordinate is within `tol` of a whole number. -/
def isIntegral (x : List K) (tol : K) : Bool :=
  x.all (fun v => decide (Scalar.fractionality v ≤ tol))

/-- `x` has the right length, and `A x ≤ b` and `x ≥ 0` hold within `tol`. -/
def isSatisfied (p : IntegerProgram K) (x : List K) (tol : K) : Bool :=
  x.length == p.numVars && !x.any (fun v => decide (v < -tol)) &&
    (p.relaxation.rows.zip p.relaxation.limits).all
      (fun (row, limit) => decide (Scalar.dot row x ≤ limit + tol))

end IntegerProgram

end BranchBound
