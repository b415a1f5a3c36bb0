import BranchBound.Decimal.Notation
import BranchBound.Json.Document

/-!
# The value of a numeral

A numeral without fraction and power is a natural or a negative whole number if it fits 64 bits.
Every other numeral is a double-precision number, computed in two roundings: its leading digits, as
many as fit 64 bits, are taken as a whole number, and that is multiplied or divided by a power of
ten.  The result can therefore differ from the nearest number in its last place.  A number beyond
the finite ones has no value.
-/

namespace BranchBound

namespace Json

/-- What a numeral stands for. -/
inductive Number where
  | natural (n : Nat)
  /-- The number `-n`, with `n` positive. -/
  | negative (n : Nat)
  | real (v : Binary64)

/-- Value of a decimal digit. -/
def digitValue (c : Char) : Nat := c.toNat - '0'.toNat

/-- Number that a list of digits spells, behind those of `start`. -/
def spell (start : Nat) (digits : List Char) : Nat :=
  digits.foldl (fun n c => n * 10 + digitValue c) start

/-- Append digits to a number as long as it stays below `2^64`; also the number of digits taken. -/
def absorb : Nat → List Char → Nat × Nat
  | n, [] => (n, 0)
  | n, c :: rest =>
    let next := n * 10 + digitValue c
    if next < Word.bound 64 then
      let (total, taken) := absorb next rest
      (total, taken + 1)
    else (n, 0)

/-- Greatest power of ten below the infinite. -/
def greatestPower : Nat := 308

/-- The double-precision number nearest to `10^k`. -/
def powerOfTen (k : Nat) : Binary64 := Binary64.ofScientific 1 false k

/-- Divide by powers of ten; once the number is zero it stays zero. -/
def scaleDown (v : Binary64) (k : Nat) : Binary64 :=
  if k ≤ greatestPower then v / powerOfTen k
  else if v.isZero then v
  else scaleDown (v / powerOfTen greatestPower) (k - greatestPower)
termination_by k
decreasing_by simp_all [greatestPower]; omega

/-- Multiply by a power of ten, unless the product is not finite. -/
def scaleUp? (v : Binary64) (k : Nat) : Option Binary64 :=
  if k ≤ greatestPower then
    let product := v * powerOfTen k
    if product.isFinite then some product else none
  else if v.isZero then some v
  else none

/-- `significand · 10^power`. -/
def scaled? (significand : Nat) (power : Int) : Option Binary64 :=
  let v := Binary64.ofNat significand
  if 0 ≤ power then scaleUp? v power.toNat else some (scaleDown v (-power).toNat)

/-- Greatest power that is read as such; a greater one decides alone. -/
def greatestWritten : Nat := Word.bound 31 - 1

namespace Numeral

/-- The magnitude of a numeral as a double-precision number. -/
def magnitude? (n : Numeral) : Option Binary64 :=
  let (head, taken) := absorb 0 n.whole
  let (significand, places) := absorb head n.fraction
  let power : Int := (n.whole.length - taken : Nat) - places
  match n.power with
  | none => scaled? significand power
  | some (negative, digits) =>
    let written := spell 0 digits
    if greatestWritten < written then
      if significand ≠ 0 ∧ !negative then none else some 0
    else scaled? significand (if negative then power - written else power + written)

/-- The value of a numeral, none if it is beyond the finite numbers. -/
def value? (n : Numeral) : Option Number :=
  let whole := spell 0 n.whole
  let real? := n.magnitude?.map (fun v => Number.real (if n.negative then -v else v))
  match n.fraction, n.power with
  | [], none =>
    if Word.bound 64 ≤ whole then real?
    else if !n.negative then some (.natural whole)
    else if whole = 0 ∨ Word.bound 63 < whole then some (.real (-Binary64.ofNat whole))
    else some (.negative whole)
  | _, _ => real?

end Numeral

namespace Number

/-- A number in double precision. -/
def toBinary64 : Number → Binary64
  | .natural n => Binary64.ofNat n
  | .negative n => -Binary64.ofNat n
  | .real v => v

end Number

/-- A double-precision number as a numeral, `null` if it is not finite. -/
def realText (v : Binary64) : String := (Decimal.compact? v).getD "null"

end Json

end BranchBound
