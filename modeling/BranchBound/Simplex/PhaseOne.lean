import BranchBound.Simplex.Primal

/-!
# First phase: a feasible basis

A constraint with a right-hand side below `-feasTol` is negated and gets an artificial column, and
that column is basic in it; every other constraint starts with its slack (`standardForm`).
Minimizing the sum of the artificial columns either brings it to zero, and the artificial columns
that are still basic can be exchanged for structural ones (`driveOut`), or shows that no point
satisfies the constraints.
-/

namespace BranchBound

namespace Simplex

/-- A tableau whose artificial columns follow its structural ones. -/
structure StandardForm (K : Type) where
  /-- The tableau, with an objective of zero. -/
  tableau : Tableau K
  /-- Number of decision and slack columns. -/
  numStructural : Nat
  /-- Number of artificial columns. -/
  numArtificial : Nat

/-- Outcome of the first phase. -/
inductive Feasibility (K : Type) where
  /-- A basis over the structural columns. -/
  | feasible (tableau : Tableau K)
  /-- No point satisfies the constraints. -/
  | infeasible
  /-- The pivots ran out. -/
  | pivotLimit
deriving DecidableEq

variable {K : Type} [Scalar K]

/-- A list of `n` entries, all zero but for `v` at index `k`. -/
def unitList (n k : Nat) (v : K) : List K := (List.replicate n 0).set k v

/-- The constraint is negated in standard form. -/
def isNegated (settings : LinearProgram.Settings K) (limit : K) : Bool :=
  decide (limit < -settings.feasTol)

/-- Rows of the standard form of `m` constraints in `n` variables with `a` artificial columns.
Constraints are counted from `index` and artificial columns from `artificial`. -/
def standardRows (settings : LinearProgram.Settings K) (n m a : Nat) :
    (index artificial : Nat) → List (List K × K) → List (TableauRow K)
  | _, _, [] => []
  | index, artificial, (coefs, limit) :: rest =>
    if isNegated settings limit then
      ⟨n + m + artificial,
        ⟨coefs.map (fun v => -1 * v) ++ unitList m index (-1) ++ unitList a artificial 1,
          -1 * limit⟩⟩
        :: standardRows settings n m a (index + 1) (artificial + 1) rest
    else
      ⟨n + index,
        ⟨coefs.map (fun v => 1 * v) ++ unitList m index 1 ++ List.replicate a 0, 1 * limit⟩⟩
        :: standardRows settings n m a (index + 1) artificial rest

/-- The columns `[A | slacks | artificials]` of a program. -/
def standardForm (settings : LinearProgram.Settings K) (p : LinearProgram K) : StandardForm K :=
  let n := p.numVars
  let m := p.numConstraints
  let a := p.limits.countP (isNegated settings)
  { tableau :=
      ⟨standardRows settings n m a 0 0 (p.rows.zip p.limits), ⟨List.replicate (n + m + a) 0, 0⟩⟩
    numStructural := n + m
    numArtificial := a }

/-- Costs that count the artificial columns. -/
def artificialCosts (f : StandardForm K) : List K :=
  List.replicate f.numStructural 0 ++ List.replicate f.numArtificial 1

/-- The first of `n` columns in which a row has an entry larger than `tol` in magnitude. -/
def exchangeColumn? (t : Tableau K) (row n : Nat) (tol : K) : Except Fault (Option Nat) := do
  let r ← Tableau.inRange t.rows[row]?
  let entries := r.line.entries.take n
  match entries.findIdx? (fun v => decide (tol < Scalar.abs v)) with
  | some col => return some col
  | none => if entries.length < n then .error .outOfRange else return none

/-- Exchange the artificial columns among the basic ones of the given rows for structural ones.
The rows that keep a structural basic column are collected in order behind `kept`. -/
def driveOut (tol : K) (numStructural : Nat) :
    List Nat → List Nat → Tableau K → Run K (Tableau K × List Nat)
  | [], kept, t => return (t, kept)
  | row :: rest, kept, t => do
    let basic ← Recorded.ofExcept (Tableau.inRange t.basis[row]?)
    if basic < numStructural then driveOut tol numStructural rest (kept ++ [row]) t
    else
      match ← Recorded.ofExcept (exchangeColumn? t row numStructural tol) with
      | some col =>
        Recorded.report (.exchange row col)
        driveOut tol numStructural rest (kept ++ [row]) (← Recorded.ofExcept (t.pivot row col))
      | none =>
        Recorded.report (.redundantRow row)
        driveOut tol numStructural rest kept t

/-- Remove the artificial columns after the artificial objective has been minimized. -/
def dropArtificials (settings : LinearProgram.Settings K) (numStructural : Nat) (t : Tableau K) :
    Run K (Feasibility K) := do
  let infeasibility := -t.constant
  if settings.feasTol < infeasibility then
    Recorded.report (.artificialOptimum infeasibility)
    return .infeasible
  else
    let (t, kept) ← driveOut settings.pivotTol numStructural (List.range t.numRows) [] t
    return .feasible (← Recorded.ofExcept (t.restrict kept numStructural))

/-- Find a feasible basis, with the number of counted pivots spent on it. -/
def phaseOne (settings : LinearProgram.Settings K) (f : StandardForm K) :
    Run K (Feasibility K × Nat) := do
  if f.numArtificial = 0 then return (.feasible f.tableau, 0)
  else
    let t ← Recorded.ofExcept (f.tableau.setObjective (artificialCosts f))
    let (s, ending) ← primal settings f.numStructural ⟨t, 0⟩
    match ending with
    | .optimal => return (← dropArtificials settings f.numStructural s.tableau, s.pivots)
    | .pivotLimit => return (.pivotLimit, s.pivots)
    | .unbounded =>
      Recorded.report .artificialRay
      return (.infeasible, s.pivots)

end Simplex

end BranchBound
