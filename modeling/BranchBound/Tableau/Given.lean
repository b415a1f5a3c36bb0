import BranchBound.Tableau
import BranchBound.Word

/-!
# Tableaus given by a matrix

A matrix with the objective row last and the right-hand sides in the last column makes a tableau,
if there is one basic column for each other row.  A matrix without columns fits too, but it has no
right-hand sides, and of it only those questions have an answer that do not look at an entry.
-/

namespace BranchBound

namespace Tableau

/-- What a matrix and basic columns make. -/
inductive Given (K : Type) where
  /-- A matrix without columns. -/
  | columnless (basis : List Nat)
  /-- A tableau. -/
  | full (tableau : Tableau K)

namespace Given

variable {K : Type}

/-- A tableau from a matrix and the basic columns. -/
def ofMatrix (matrix : List (List K)) (basis : List Nat) : Except Fault (Given K) :=
  if matrix.length = basis.length + 1 ∧ matrix.all List.isEmpty then .ok (.columnless basis)
  else (Tableau.ofMatrix matrix basis).map .full

/-- The tableau, if there are entries. -/
def tableau : Given K → Except Fault (Tableau K)
  | .columnless _ => .error .outOfRange
  | .full t => .ok t

variable [Scalar K]

/-- The entering column among the first `limit`; among none there is none. -/
def selectEntering (g : Given K) (rule : PivotRule) (limit : Nat) (tol : K) :
    Except Fault (Option Nat) :=
  match g with
  | .columnless _ => if limit = 0 then .ok none else .error .outOfRange
  | .full t => t.selectEntering rule limit tol

/-- Values of the first `n` columns, if that many fit into memory. -/
def primalValues (g : Given K) (n : Nat) : Except Fault (List K) :=
  if n < Word.memory then
    match g with
    | .columnless basis =>
      if basis.any (fun col => decide (col < n)) then .error .outOfRange
      else .ok (List.replicate n 0)
    | .full t => .ok (t.primalValues n)
  else .error .outOfRange

end Given

end Tableau

end BranchBound
