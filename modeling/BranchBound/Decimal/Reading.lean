import BranchBound.Binary64

/-!
# Reading numbers from a command line

Two forms are known: a natural number, with a plus sign allowed in front (`natural?`), and a decimal
with optional sign, point and power of ten, or one of the words for the infinite and the undefined
value in any case of letters (`float?`).  The nearest double-precision number is taken.
-/

namespace BranchBound

namespace Decimal

/-- A text that consists of digits, at least one, as a number. -/
def digits? (cs : List Char) : Option Nat :=
  if cs.isEmpty || !cs.all Char.isDigit then none
  else some (cs.foldl (fun n c => n * 10 + (c.toNat - '0'.toNat)) 0)

/-- A natural number below a bound, with a plus sign allowed in front. -/
def natural? (bound : Nat) (text : String) : Option Nat := do
  let n ← digits? (match text.toList with
    | '+' :: rest => rest
    | cs => cs)
  if n < bound then some n else none

/-- A whole number with optional sign. -/
def signedDigits? (cs : List Char) : Option Int :=
  match cs with
  | '-' :: rest => (digits? rest).map (fun n => -(n : Int))
  | '+' :: rest => (digits? rest).map Int.ofNat
  | _ => (digits? cs).map Int.ofNat

/-- A power of ten beyond which every number of up to so many digits is infinite, and below whose
negative it is zero. -/
def extremePower : Nat := 400

/-- The number nearest to `m · 10^e`. -/
def nearest (m : Nat) (e : Int) : Binary64 :=
  let width : Int := (toString m).length
  if m = 0 ∨ e + width < -(extremePower : Int) then 0
  else if (extremePower : Int) < e + width then Binary64.infinity
  else Binary64.ofScientific m (decide (e < 0)) e.natAbs

/-- Letters before and after the first sign of a power of ten. -/
def splitPower (cs : List Char) : List Char × Option (List Char) :=
  let isSign (c : Char) : Bool := c == 'e' || c == 'E'
  match cs.dropWhile (fun c => !isSign c) with
  | [] => (cs, none)
  | _ :: power => (cs.takeWhile (fun c => !isSign c), some power)

/-- Digits before and after the point; there must be one on some side. -/
def mantissa? (cs : List Char) : Option (Nat × Nat) :=
  let whole := cs.takeWhile (fun c => !(c == '.'))
  let fraction := (cs.dropWhile (fun c => !(c == '.'))).drop 1
  (digits? (whole ++ fraction)).map (fun m => (m, fraction.length))

/-- A number without its sign. -/
def unsigned? (cs : List Char) : Option Binary64 :=
  let word := String.ofList (cs.map Char.toLower)
  if word == "inf" || word == "infinity" then some (Binary64.infinity)
  else if word == "nan" then some (Binary64.nan)
  else do
    let (head, power) := splitPower cs
    let (m, places) ← mantissa? head
    let e ← match power with
      | none => some 0
      | some power => signedDigits? power
    return nearest m (e - places)

/-- A decimal number or a word for one that is not finite. -/
def float? (text : String) : Option Binary64 :=
  match text.toList with
  | '-' :: rest => (unsigned? rest).map (fun v => -v)
  | '+' :: rest => unsigned? rest
  | cs => unsigned? cs

end Decimal

end BranchBound
