import BranchBound.Json.Schema
import BranchBound.LinearProgram.Solution
import BranchBound.Scalar.Binary64

/-!
# Linear programs in JSON

Schemas for linear programs, their settings and their solutions.  Settings may leave out any field,
and the standard settings fill it in.
-/

namespace BranchBound

open Json (Schema Fields)

namespace Json.Schema

/-- One of some values by name. -/
def oneOf {α : Type} (values : List α) (name : α → String)
    (lookup_name : ∀ value, (values.map (fun v => (name v, v))).lookup (name value) = some value) :
    Schema α :=
  .choice (values.map (fun v => (name v, v))) name lookup_name

/-- A count of things in memory. -/
def size : Schema Nat := .natural "usize" (Word.bound 64)

/-- A count that fits 64 bits. -/
def count : Schema Nat := .natural "u64" (Word.bound 64)

end Json.Schema

namespace Json.Fields

/-- A field that must be there. -/
def need {α ρ δ : Type} (name : String) (item : Schema α) (rest : Fields ρ δ) :
    Fields (α × ρ) (Option α × δ) :=
  .cons name .forbidden item rest

/-- A field that may be `null`, and that a record may leave out. -/
def maybe {α ρ δ : Type} (name : String) (item : Schema α) (rest : Fields ρ δ) :
    Fields (Option α × ρ) (Option (Option α) × δ) :=
  .cons name (.inRecord none) (.optional item) rest

/-- A field that has a value when it is left out. -/
def withDefault {α ρ δ : Type} (name : String) (value : α) (item : Schema α) (rest : Fields ρ δ) :
    Fields (α × ρ) (Option α × δ) :=
  .cons name (.allowed value) item rest

end Json.Fields

namespace Sense

/-- The sense by name. -/
def name : Sense → String
  | .minimize => "minimize"
  | .maximize => "maximize"

/-- Senses in JSON. -/
def schema : Schema Sense :=
  .oneOf [.minimize, .maximize] name (by intro v; cases v <;> rfl)

end Sense

namespace PivotRule

/-- The rule by name. -/
def name : PivotRule → String
  | .dantzig => "dantzig"
  | .firstProfitable => "first_profitable"

/-- Pivot rules in JSON. -/
def schema : Schema PivotRule :=
  .oneOf [.dantzig, .firstProfitable] name (by intro v; cases v <;> rfl)

end PivotRule

namespace LinearProgram

/-- Verdicts in JSON. -/
def Status.schema : Schema Status :=
  .oneOf [.optimal, .infeasible, .unbounded, .pivotLimit] Status.name (by intro v; cases v <;> rfl)

/-- Linear programs in JSON. -/
def schema : Schema (LinearProgram Binary64) :=
  .record "LpProblem"
    (.need "c" (.list .real) <| .need "a" (.list (.list .real)) <| .need "b" (.list .real) <|
      .need "sense" Sense.schema <| .nil)
    (fun (c, a, b, sense, ()) => ⟨c, a, b, sense⟩)
    (fun p => (p.objective, p.rows, p.limits, p.sense, ()))
    (fun _ => rfl)

/-- Settings of a linear solve in JSON. -/
def Settings.schema : Schema (Settings Binary64) :=
  let d : Settings Binary64 := .standard
  .record "SolverSettings"
    (.withDefault "max_iter" d.maxPivots .size <|
      .withDefault "pivot_rule" d.pivotRule PivotRule.schema <|
      .withDefault "tol_cost" d.costTol .real <|
      .withDefault "tol_pivot" d.pivotTol .real <|
      .withDefault "tol_feas" d.feasTol .real <| .nil)
    (fun (maxPivots, rule, costTol, pivotTol, feasTol, ()) =>
      ⟨maxPivots, rule, costTol, pivotTol, feasTol⟩)
    (fun s => (s.maxPivots, s.pivotRule, s.costTol, s.pivotTol, s.feasTol, ()))
    (fun _ => rfl)

/-- Solutions of a linear solve in JSON. -/
def Solution.schema : Schema (Solution Binary64) :=
  .record "LpSolution"
    (.need "status" Status.schema <| .need "x" (.list .real) <| .need "obj_val" .real <|
      .need "iterations" .size <| .nil)
    (fun (status, x, value, pivots, ()) => ⟨status, x, value, pivots⟩)
    (fun s => (s.status, s.x, s.value, s.pivots, ()))
    (fun _ => rfl)

end LinearProgram

end BranchBound
