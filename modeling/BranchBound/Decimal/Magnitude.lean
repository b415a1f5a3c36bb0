import BranchBound.Binary64

/-!
# Binary magnitudes and their place on the decimal line

A double-precision number is a sign and a magnitude `m · 2^q` with whole `m` and `q`, or it is
infinite or undefined (`Decoded`).  Everything decimal about a magnitude is computed exactly: as a
fraction of natural numbers in units of some power of ten (`Magnitude.inUnits`).
-/

namespace BranchBound

namespace Decimal

/-- A number `mantissa · 2^exponent`. -/
structure Magnitude where
  /-- Whole multiple. -/
  mantissa : Nat
  /-- Power of two. -/
  exponent : Int
deriving DecidableEq, Repr

/-- What a double-precision word stands for. -/
inductive Decoded where
  | nan
  | infinite (negative : Bool)
  | finite (negative : Bool) (magnitude : Magnitude)
deriving DecidableEq, Repr

/-- Least exponent of a double-precision magnitude. -/
def leastExponent : Int := -1074

/-- Least mantissa of a double-precision magnitude with a greater exponent than the least. -/
def leastNormal : Nat := Word.bound 52

/-- Read sign, exponent and fraction off the 64 bits of a double-precision number. -/
def decode (bits : Nat) : Decoded :=
  let negative := decide (Word.bound 63 ≤ bits)
  let biased : Nat := bits / Word.bound 52 % Word.bound 11
  let fraction := bits % Word.bound 52
  if biased = 2047 then if fraction = 0 then .infinite negative else .nan
  else if biased = 0 then .finite negative ⟨fraction, leastExponent⟩
  else .finite negative ⟨leastNormal + fraction, leastExponent + (biased : Int) - 1⟩

/-- The sign and magnitude of a number. -/
def signAndMagnitude (v : Binary64) : Decoded := decode v.bits.toNat

/-- Number of decimal digits, none for zero. -/
def digitCount (n : Nat) : Nat := if n = 0 then 0 else (Nat.toDigits 10 n).length

namespace Magnitude

/-- The magnitude in units of `10^unit`, as numerator and denominator. -/
def inUnits (v : Magnitude) (unit : Int) : Nat × Nat :=
  (v.mantissa * Nat.pow 2 v.exponent.toNat * Nat.pow 10 (-unit).toNat,
    Nat.pow 2 (-v.exponent).toNat * Nat.pow 10 unit.toNat)

/-- The power of ten of the first digit of a positive magnitude. -/
def leading (v : Magnitude) : Int :=
  let (num, den) := v.inUnits 0
  if den ≤ num then (digitCount (num / den) : Int) - 1
  else -(digitCount ((den - 1) / num) : Int)

end Magnitude

/-- The whole number nearest to `num / den`; of two equally near ones the even. -/
def roundHalfEven (num den : Nat) : Nat :=
  let low := num / den
  let twice := 2 * (num % den)
  if twice < den then low
  else if den < twice then low + 1
  else if low % 2 = 0 then low else low + 1

end Decimal

end BranchBound
