import BranchBound.Scalar
import BranchBound.Word

/-!
# Exact scalars

The rationals as scalars.  They have no rim: nothing lies above or below all of them and every
operation has a value, so `top`, `bottom` and `undefined` are names for zero here and every
rational is below the top.
-/

namespace BranchBound

namespace Exact

/-- Nearest whole number; a half goes away from zero. -/
def round (a : Rat) : Rat :=
  if a < 0 then -((-a + 1 / 2).floor : Rat) else ((a + 1 / 2).floor : Rat)

end Exact

instance : Scalar Rat where
  toZero := inferInstanceAs (Zero Rat)
  toOne := inferInstanceAs (One Rat)
  toAdd := inferInstanceAs (Add Rat)
  toSub := inferInstanceAs (Sub Rat)
  toMul := inferInstanceAs (Mul Rat)
  toDiv := inferInstanceAs (Div Rat)
  toNeg := inferInstanceAs (Neg Rat)
  toLT := inferInstanceAs (LT Rat)
  toLE := inferInstanceAs (LE Rat)
  toNatCast := inferInstanceAs (NatCast Rat)
  toOfScientific := inferInstanceAs (OfScientific Rat)
  rank a b := if a < b then .lt else if b < a then .gt else .eq
  decideLt a b := inferInstanceAs (Decidable (a < b))
  decideLe a b := inferInstanceAs (Decidable (a ≤ b))
  isZero a := a == 0
  isFinite _ := true
  belowTop _ := true
  abs a := if a < 0 then -a else a
  floor a := (a.floor : Rat)
  ceil a := (a.ceil : Rat)
  round := Exact.round
  larger a b := if a < b then b else a
  smaller a b := if b < a then b else a
  truncate a := min a.floor.toNat (Word.bound 64 - 1)
  top := 0
  bottom := 0
  undefined := 0

end BranchBound
