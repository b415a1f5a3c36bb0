import BranchBound.LinearProgram.Solution

/-!
# Dense simplex tableaus

A tableau holds one equation per constraint, each solved for its basic column, and an objective
row.  A `Line` is what all of them share: one coefficient per variable column and a right-hand
side.  The objective row's coefficients are the reduced costs, and its right-hand side is the
negated objective value of the current basis.

Rows are numbered from zero with the objective row after the last, columns likewise with the
right-hand side after the last.  Going beyond either is a `Fault`, and so is a pivot on an entry
that is zero.
-/

namespace BranchBound

/-- A misuse of a tableau or of a table of nodes; no answer is defined. -/
inductive Fault where
  /-- A row, column, variable or node number is out of range. -/
  | outOfRange
  /-- The parts of a tableau do not have matching sizes. -/
  | sizeMismatch
  /-- A pivot on an entry that is zero. -/
  | zeroPivot
deriving DecidableEq, Repr

/-- Coefficients of the variable columns, and a right-hand side. -/
structure Line (K : Type) where
  /-- One coefficient per variable column. -/
  coefs : List K
  /-- The right-hand side. -/
  rhs : K
deriving DecidableEq

namespace Line

variable {K : Type}

/-- All entries, the right-hand side last. -/
def entries (l : Line K) : List K := l.coefs ++ [l.rhs]

/-- The entry in a column, the right-hand side being the column after the last. -/
def entry? (l : Line K) (col : Nat) : Option K := l.entries[col]?

/-- The first `n` of all entries as coefficients, with the same right-hand side. -/
def firstColumns (n : Nat) (l : Line K) : Line K := ⟨l.entries.take n, l.rhs⟩

@[simp] theorem length_entries (l : Line K) : l.entries.length = l.coefs.length + 1 := by
  simp [entries]

variable [Scalar K]

/-- Every entry divided by `p`. -/
def divideBy (l : Line K) (p : K) : Line K := ⟨l.coefs.map (fun v => v / p), l.rhs / p⟩

/-- Subtract `factor` times another line. -/
def minus (l : Line K) (factor : K) (other : Line K) : Line K :=
  ⟨List.zipWith (fun v w => v - factor * w) l.coefs other.coefs, l.rhs - factor * other.rhs⟩

/-- Subtract a multiple of another line, unless the factor is zero. -/
def eliminate (l : Line K) (factor : K) (other : Line K) : Line K :=
  if Scalar.isZero factor then l else l.minus factor other

end Line

/-- An equation of the tableau with the column it is solved for. -/
structure TableauRow (K : Type) where
  /-- The basic column. -/
  basic : Nat
  /-- The equation. -/
  line : Line K
deriving DecidableEq

/-- Constraint rows and an objective row. -/
structure Tableau (K : Type) where
  /-- The constraint rows. -/
  rows : List (TableauRow K)
  /-- Reduced costs and the negated objective value. -/
  objective : Line K
deriving DecidableEq

namespace Tableau

variable {K : Type}

/-- Number of constraint rows. -/
def numRows (t : Tableau K) : Nat := t.rows.length

/-- Number of variable columns. -/
def numCols (t : Tableau K) : Nat := t.objective.coefs.length

/-- The basic column of each row. -/
def basis (t : Tableau K) : List Nat := t.rows.map TableauRow.basic

/-- Negated objective value of the current basis. -/
def constant (t : Tableau K) : K := t.objective.rhs

/-- The lines in order, the objective last. -/
def lines (t : Tableau K) : List (Line K) := t.rows.map TableauRow.line ++ [t.objective]

/-- The line with the given number, the objective being the one after the last row. -/
def line? (t : Tableau K) (row : Nat) : Option (Line K) := t.lines[row]?

/-- A value, or the fault of asking beyond the range. -/
def inRange {α : Type} : Option α → Except Fault α
  | some a => .ok a
  | none => .error .outOfRange

/-- Entry in a row and a column. -/
def entry (t : Tableau K) (row col : Nat) : Except Fault K :=
  inRange ((t.line? row).bind (fun l => l.entry? col))

/-- Right-hand side of a row. -/
def rhs (t : Tableau K) (row : Nat) : Except Fault K :=
  inRange ((t.line? row).map Line.rhs)

/-- Reduced cost of a column. -/
def reducedCost (t : Tableau K) (col : Nat) : Except Fault K :=
  inRange (t.objective.entry? col)

/-- Read a line off a list whose last element is the right-hand side. -/
def lineOf? (entries : List K) : Option (Line K) :=
  entries.getLast?.map (fun rhs => ⟨entries.dropLast, rhs⟩)

/-- A tableau from a matrix, objective row and right-hand side last, and the basic columns. -/
def ofMatrix (matrix : List (List K)) (basis : List Nat) : Except Fault (Tableau K) :=
  match matrix.mapM lineOf? with
  | none => .error .sizeMismatch
  | some lines =>
    match lines.getLast? with
    | none => .error .sizeMismatch
    | some objective =>
      if lines.length = basis.length + 1 ∧
          lines.all (fun l => l.coefs.length == objective.coefs.length) then
        .ok ⟨List.zipWith TableauRow.mk basis lines.dropLast, objective⟩
      else .error .sizeMismatch

/-- Keep the given rows, in the given order, and the first `numCols` columns.  The objective row
and the right-hand sides stay. -/
def restrict (t : Tableau K) (keep : List Nat) (numCols : Nat) : Except Fault (Tableau K) := do
  let rows ← keep.mapM (fun row => inRange t.rows[row]?)
  if t.objective.entries.length < numCols then .error .outOfRange
  else .ok ⟨rows.map (fun r => { r with line := r.line.firstColumns numCols }),
    t.objective.firstColumns numCols⟩

variable [Scalar K]

/-! ## Choice of the pivot -/

/-- The lowest index, counted from `index`, of the smallest cost below `bound`; `found` is the
best so far. -/
def lowestBelow : Nat → K → Option Nat → List K → Option Nat
  | _, _, found, [] => found
  | index, bound, found, cost :: rest =>
      if cost < bound then lowestBelow (index + 1) cost (some index) rest
      else lowestBelow (index + 1) bound found rest

/-- The entering column among the first `limit`, none if no reduced cost lies below `-tol`. -/
def selectEntering (t : Tableau K) (rule : PivotRule) (limit : Nat) (tol : K) :
    Except Fault (Option Nat) :=
  let costs := t.objective.entries.take limit
  match rule with
  | .dantzig =>
      if costs.length < limit then .error .outOfRange
      else .ok (lowestBelow 0 (-tol) none costs)
  | .firstProfitable =>
      match costs.findIdx? (fun cost => decide (cost < -tol)) with
      | some col => .ok (some col)
      | none => if costs.length < limit then .error .outOfRange else .ok none

/-- `ratio` is below the least ratio so far; without one, below the top. -/
def undercuts (ratio : K) : Option (Nat × K) → Bool
  | none => Scalar.belowTop ratio
  | some (_, least) => decide (ratio < least)

/-- Ratio test over rows counted from `index`: the first row with the least ratio of right-hand
side to entry among the entries above `tol`. -/
def ratioTest (col : Nat) (tol : K) :
    Nat → Option (Nat × K) → List (TableauRow K) → Except Fault (Option Nat)
  | _, best, [] => .ok (best.map Prod.fst)
  | index, best, row :: rest =>
    match row.line.entry? col with
    | none => .error .outOfRange
    | some coef =>
      let ratio := row.line.rhs / coef
      if tol < coef ∧ undercuts ratio best then
        ratioTest col tol (index + 1) (some (index, ratio)) rest
      else ratioTest col tol (index + 1) best rest

/-- The leaving row for an entering column, none if no entry lies above `tol`: then the column is
a direction without end. -/
def selectLeaving (t : Tableau K) (col : Nat) (tol : K) : Except Fault (Option Nat) :=
  ratioTest col tol 0 none t.rows

/-! ## Change of basis -/

/-- Clear a column of a line by the pivot line. -/
def clearColumn (col : Nat) (pivotLine line : Line K) : Line K :=
  match line.entry? col with
  | some factor => line.eliminate factor pivotLine
  | none => line

/-- Pivot on an entry: divide its row by it, clear its column elsewhere, and make the column basic
in the row. -/
def pivot (t : Tableau K) (row col : Nat) : Except Fault (Tableau K) :=
  match t.rows[row]? with
  | none => .error .outOfRange
  | some pivotRow =>
    match pivotRow.line.entry? col with
    | none => .error .outOfRange
    | some entry =>
      if Scalar.isZero entry then .error .zeroPivot
      else
        let pivotLine := pivotRow.line.divideBy entry
        .ok ⟨t.rows.mapIdx (fun i r =>
              if i = row then ⟨col, pivotLine⟩
              else { r with line := clearColumn col pivotLine r.line }),
            clearColumn col pivotLine t.objective⟩

/-- After a pivot its column is basic in its row, and the other rows keep theirs. -/
theorem basis_of_pivot_eq_ok {t t' : Tableau K} {row col : Nat} (h : t.pivot row col = .ok t') :
    t'.basis = t.basis.set row col := by
  unfold pivot at h
  split at h
  · contradiction
  · split at h
    · contradiction
    · split at h
      · contradiction
      · obtain rfl := by simpa using h
        apply List.ext_getElem
        · simp [basis]
        · intro i _ _
          by_cases hi : i = row
          · simp [basis, hi]
          · simp [basis, hi, Ne.symm hi]

/-- A pivot keeps the number of rows. -/
theorem numRows_of_pivot_eq_ok {t t' : Tableau K} {row col : Nat}
    (h : t.pivot row col = .ok t') : t'.numRows = t.numRows := by
  simpa [basis, numRows] using congrArg List.length (basis_of_pivot_eq_ok h)

/-- Make an objective line zero in the basic columns of the rows, one row after the other. -/
def priceOut : Line K → List (TableauRow K) → Except Fault (Line K)
  | objective, [] => .ok objective
  | objective, row :: rest =>
    match objective.entry? row.basic with
    | none => .error .outOfRange
    | some factor => priceOut (objective.eliminate factor row.line) rest

/-- Take `costs` as the objective, expressed in the non-basic columns. -/
def setObjective (t : Tableau K) (costs : List K) : Except Fault (Tableau K) :=
  if costs.length = t.numCols then
    (priceOut ⟨costs, 0⟩ t.rows).map (fun objective => { t with objective := objective })
  else .error .sizeMismatch

/-- Values of the first `n` columns at the current basis. -/
def primalValues (t : Tableau K) (n : Nat) : List K :=
  t.rows.foldl (fun x row => x.set row.basic row.line.rhs) (List.replicate n 0)

end Tableau

end BranchBound
