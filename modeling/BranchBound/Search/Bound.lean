import BranchBound.Scalar.Text
import BranchBound.Tableau

/-!
# Branching bounds

Branching on a variable at a fractional value splits off the points at or below its floor from
those at or above its ceiling.  A bound is one half of such a split; as a constraint it is a row
with a single entry, and a lower bound is negated to fit `row · x ≤ limit`.
-/

namespace BranchBound

/-- Which side of its value a bound allows. -/
inductive Direction where
  /-- At most the value. -/
  | upper
  /-- At least the value. -/
  | lower
deriving DecidableEq, Inhabited, Repr

/-- A bound on one variable. -/
structure Bound (K : Type) where
  /-- The variable, counted from zero. -/
  var : Nat
  /-- The side that is allowed. -/
  direction : Direction
  /-- The value, a whole number when it comes from branching. -/
  value : K
deriving DecidableEq

namespace Bound

variable {K : Type}

/-- The relation sign of a direction. -/
def sign : Direction → String
  | .upper => "<="
  | .lower => ">="

/-- The bound in words, with variables counted from one. -/
def describe [PlainText K] (b : Bound K) : String :=
  s!"x{b.var + 1} " ++ sign b.direction ++ " " ++ plainText b.value

/-- The bound in words, if the variable's number counted from one still fits a word. -/
def describe? [PlainText K] (b : Bound K) : Except Fault String :=
  if b.var + 1 < Word.bound 64 then .ok b.describe else .error .outOfRange

variable [Scalar K]

/-- The half at or below the floor of `value`. -/
def down (var : Nat) (value : K) : Bound K := ⟨var, .upper, Scalar.floor value⟩

/-- The half at or above the ceiling of `value`. -/
def up (var : Nat) (value : K) : Bound K := ⟨var, .lower, Scalar.ceil value⟩

/-- The bound as `row · x ≤ limit` over `n` variables. -/
def toRow (b : Bound K) (n : Nat) : Except Fault (List K × K) :=
  if b.var < n then
    match b.direction with
    | .upper => .ok ((List.replicate n 0).set b.var 1, b.value)
    | .lower => .ok ((List.replicate n 0).set b.var (-1), -b.value)
  else .error .outOfRange

/-- The bound as a row, if a row of `n` numbers fits into memory. -/
def toRow? (b : Bound K) (n : Nat) : Except Fault (List K × K) :=
  if n < Word.memory then b.toRow n else .error .outOfRange

end Bound

end BranchBound
