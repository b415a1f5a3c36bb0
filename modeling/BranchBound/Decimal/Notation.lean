import BranchBound.Decimal.Shortest

/-!
# Decimal notations

Four ways to write a number: the shortest decimal without an exponent (`plain`), a fixed number of
places (`fixed`), one digit before the point and a power of ten (`scientific`), and the shortest
decimal that turns to a power of ten when it would get long (`compact`).  The first three know the
infinite and the undefined value.  The sign of zero is always written.
-/

namespace BranchBound

namespace Decimal

/-- `n` zeros. -/
def zeros (n : Nat) : String := String.ofList (List.replicate n '0')

/-- A text with a minus sign in front if `negative`. -/
def signed (negative : Bool) (text : String) : String := if negative then "-" ++ text else text

/-- The digits of `n`, filled with zeros in front to `width` places. -/
def padded (width n : Nat) : String :=
  let text := toString n
  zeros (width - text.length) ++ text

/-- A decimal point after `place` of the digits. -/
def pointAt (place : Nat) (digits : String) : String :=
  String.ofList (digits.toList.take place) ++ "." ++ String.ofList (digits.toList.drop place)

/-- Positional notation; `whole` is what a number without fraction ends in. -/
def positional (whole : String) (d : Digits) : String :=
  let text := toString d.digits
  let place : Int := text.length + d.exponent
  if 0 ≤ d.exponent then text ++ zeros d.exponent.toNat ++ whole
  else if 0 < place then pointAt place.toNat text
  else "0." ++ zeros (-place).toNat ++ text

/-- The shortest decimal that reads back, without an exponent. -/
def plain (v : Binary64) : String :=
  match signAndMagnitude v with
  | .nan => "NaN"
  | .infinite negative => signed negative "inf"
  | .finite negative m =>
    signed negative (if m.mantissa = 0 then "0" else positional "" (shortest .up m))

/-- Exactly `places` digits after the point, nearest value, a half to the even digit. -/
def fixed (places : Nat) (v : Binary64) : String :=
  match signAndMagnitude v with
  | .nan => "NaN"
  | .infinite negative => signed negative "inf"
  | .finite negative m =>
    let (num, den) := m.inUnits (-(places : Int))
    let units := roundHalfEven num den
    let whole := toString (units / Nat.pow 10 places)
    signed negative
      (if places = 0 then whole else whole ++ "." ++ padded places (units % Nat.pow 10 places))

/-- A positive magnitude rounded to `places + 1` digits. -/
def roundToDigits (places : Nat) (m : Magnitude) : Digits :=
  let unit := m.leading - places
  let (num, den) := m.inUnits unit
  let units := roundHalfEven num den
  if units = Nat.pow 10 (places + 1) then ⟨Nat.pow 10 places, unit + 1⟩ else ⟨units, unit⟩

/-- One digit before the point, `places` after it, and a power of ten. -/
def scientific (places : Nat) (v : Binary64) : String :=
  match signAndMagnitude v with
  | .nan => "NaN"
  | .infinite negative => signed negative "inf"
  | .finite negative m =>
    let d := if m.mantissa = 0 then ⟨0, -(places : Int)⟩ else roundToDigits places m
    let text := padded (places + 1) d.digits
    signed negative
      ((if places = 0 then text else pointAt 1 text) ++ "e" ++ toString (d.exponent + places))

/-- Greatest power of ten of a first digit that is written without an exponent. -/
def greatestPlain : Int := 15

/-- Least power of ten of a first digit that is written without an exponent. -/
def leastPlain : Int := -5

/-- A power of ten with its sign always written. -/
def powerText (e : Int) : String :=
  if e < 0 then toString e else "+" ++ toString e

/-- The shortest decimal that reads back: positional if its first digit is of moderate size, with
a point in any case, and else as a multiple of a power of ten.  Nothing if the value is not
finite. -/
def compact? (v : Binary64) : Option String :=
  match signAndMagnitude v with
  | .nan => none
  | .infinite _ => none
  | .finite negative m =>
    if m.mantissa = 0 then some (signed negative "0.0")
    else
      let d := shortest .toEven m
      let text := toString d.digits
      let first : Int := text.length - 1 + d.exponent
      if leastPlain ≤ first ∧ first ≤ greatestPlain then
        some (signed negative (positional ".0" d))
      else
        let mantissa := if text.length = 1 then text else pointAt 1 text
        some (signed negative (mantissa ++ "e" ++ powerText first))

end Decimal

end BranchBound
