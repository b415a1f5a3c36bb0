import BranchBound.Search.Bound
import BranchBound.Search.Settings

/-!
# Choice of the branching variable

A variable is eligible when its value is farther than the tolerance from every whole number.  Each
rule gives the eligible variables a score; the largest score wins, and of equal ones the first.
-/

namespace BranchBound

namespace Search

/-- A variable to branch on and the two halves of the split. -/
structure Decision (K : Type) where
  /-- The variable. -/
  var : Nat
  /-- Its value. -/
  value : K
  /-- The half below. -/
  down : Bound K
  /-- The half above. -/
  up : Bound K

namespace Branching

variable {K : Type} [Scalar K]

/-- Eligible variables with their distance to a whole number, counted from `index`. -/
def eligible (tol : K) : Nat → List K → List (Nat × K)
  | _, [] => []
  | index, v :: rest =>
    let distance := Scalar.fractionality v
    if tol < distance then (index, distance) :: eligible tol (index + 1) rest
    else eligible tol (index + 1) rest

/-- Keep the best so far unless the new score is not at most its score. -/
def better (best : Option (Nat × K)) (candidate : Nat × K) : Option (Nat × K) :=
  match best with
  | none => some candidate
  | some (index, score) => if candidate.2 ≤ score then some (index, score) else some candidate

/-- Index with the largest score, the first of equal ones. -/
def bestScore (scores : List (Nat × K)) : Option Nat :=
  (scores.foldl better none).map Prod.fst

/-- Distance weighted by the magnitude of the objective coefficient, zero if there is none. -/
def weigh (objective : List K) (candidate : Nat × K) : Nat × K :=
  (candidate.1, Scalar.abs ((objective[candidate.1]?).getD 0) * candidate.2)

/-- The variable to branch on, none if every value is within `tol` of a whole number. -/
def select (rule : BranchingRule) (objective : List K) (tol : K) (x : List K) : Option Nat :=
  let candidates := eligible tol 0 x
  match rule with
  | .firstFractional => candidates.head?.map Prod.fst
  | .mostFractional => bestScore candidates
  | .maxCoefficient => bestScore (candidates.map (weigh objective))

/-- The split at the selected variable. -/
def split? (rule : BranchingRule) (objective : List K) (tol : K) (x : List K) :
    Option (Decision K) := do
  let var ← select rule objective tol x
  let value ← x[var]?
  return ⟨var, value, Bound.down var value, Bound.up var value⟩

end Branching

end Search

end BranchBound
