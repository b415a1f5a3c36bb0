/-!
# Scalars: the numbers a solver computes with

Nothing in the simplex method or in the search looks inside a number.  This file lists what they
ask of one (`Scalar`): the four operations, comparisons that may fail in both directions (as they
do for an undefined value), rounding to whole numbers, and three values at the rim of the line.
Algorithms are written once over this class; `Scalar/Binary64.lean` supplies the double-precision
numbers the program runs on and `Scalar/Exact.lean` the rationals.

Comparisons of two kinds are kept apart.  `<` and `≤` are the arithmetic ones.  `Ranked.rank` is a
total order, used where every two values must have a place, as in the frontier of a search.
-/

namespace BranchBound

/-- Values with a total order that decides every pair. -/
class Ranked (V : Type) where
  /-- Position of the first value relative to the second. -/
  rank : V → V → Ordering

/-- Numbers the solver can compute with.  No law is assumed here. -/
class Scalar (K : Type) extends Zero K, One K, Add K, Sub K, Mul K, Div K, Neg K, LT K, LE K,
    NatCast K, OfScientific K, Ranked K where
  /-- `<` is a test. -/
  decideLt : DecidableLT K
  /-- `≤` is a test. -/
  decideLe : DecidableLE K
  /-- The value compares equal to zero. -/
  isZero : K → Bool
  /-- The value is a number, neither undefined nor beyond the line. -/
  isFinite : K → Bool
  /-- The value lies strictly below `top`. -/
  belowTop : K → Bool
  /-- Magnitude. -/
  abs : K → K
  /-- Largest whole number not above the value. -/
  floor : K → K
  /-- Smallest whole number not below the value. -/
  ceil : K → K
  /-- Nearest whole number; a half goes away from zero. -/
  round : K → K
  /-- The larger of two values; an undefined one loses. -/
  larger : K → K → K
  /-- The smaller of two values; an undefined one loses. -/
  smaller : K → K → K
  /-- Whole part, cut off to `[0, 2^64)`; zero for an undefined value. -/
  truncate : K → Nat
  /-- Above every number, where such a value exists. -/
  top : K
  /-- Below every number, where such a value exists. -/
  bottom : K
  /-- The value of what has none. -/
  undefined : K

attribute [reducible, instance] Scalar.decideLt Scalar.decideLe

namespace Scalar

variable {K : Type} [Scalar K]

/-- Sum of products of paired entries, added from the left; the longer list is cut. -/
def dot (a x : List K) : K :=
  (List.zipWith (fun u v => u * v) a x).foldl (fun s p => s + p) 0

/-- Distance to the nearest whole number. -/
def fractionality (v : K) : K := abs (v - round v)

end Scalar

end BranchBound
