import BranchBound.Decimal.Magnitude

/-!
# Shortest decimals that read back

A decimal reads back as a number if it lies in the interval of values that round to that number.
`shortest` looks for such a decimal with as few digits as possible: on the grid of decimals with
`k` digits, one of the two neighbours of the number is in the interval if any point of the grid
is.  Of two neighbours in the interval the nearer is taken; a tie is left to the caller.
-/

namespace BranchBound

namespace Decimal

/-- What to do with two equally near decimals. -/
inductive Tie where
  /-- Take the one with the even last digit. -/
  | toEven
  /-- Take the larger one. -/
  | up
deriving DecidableEq, Repr

/-- The number `digits · 10^exponent`. -/
structure Digits where
  /-- The digits as a number. -/
  digits : Nat
  /-- Power of ten of the last digit. -/
  exponent : Int
deriving DecidableEq, Repr

/-- The interval of reals that round to a magnitude: its ends as multiples of the magnitude's own
spacing divided by four, and whether they belong to it. -/
structure Interval where
  /-- Lower end. -/
  low : Magnitude
  /-- Upper end. -/
  high : Magnitude
  /-- The ends belong to the interval. -/
  closed : Bool

/-- The reals that round to `v`.  Below a power of two the spacing is half as large. -/
def Interval.around (v : Magnitude) : Interval :=
  let below := if v.mantissa = leastNormal ∧ leastExponent < v.exponent then 1 else 2
  { low := ⟨4 * v.mantissa - below, v.exponent - 2⟩
    high := ⟨4 * v.mantissa + 2, v.exponent - 2⟩
    closed := v.mantissa % 2 == 0 }

/-- `c · 10^unit` lies in the interval. -/
def Interval.contains (i : Interval) (c : Nat) (unit : Int) : Bool :=
  let (lowNum, lowDen) := i.low.inUnits unit
  let (highNum, highDen) := i.high.inUnits unit
  if i.closed then decide (lowNum ≤ c * lowDen ∧ c * highDen ≤ highNum)
  else decide (lowNum < c * lowDen ∧ c * highDen < highNum)

/-- The neighbour of `v` among the multiples of `10^unit` that reads back as `v`, if there is
one. -/
def neighbour? (tie : Tie) (v : Magnitude) (unit : Int) : Option Nat :=
  let (num, den) := v.inUnits unit
  let low := num / den
  let range := Interval.around v
  match range.contains low unit, range.contains (low + 1) unit with
  | false, false => none
  | true, false => some low
  | false, true => some (low + 1)
  | true, true =>
    let twice := 2 * (num % den)
    if twice < den then some low
    else if den < twice then some (low + 1)
    else match tie with
      | .up => some (low + 1)
      | .toEven => if low % 2 = 0 then some low else some (low + 1)

/-- Write `10^k · 10^unit` with a single digit. -/
def carry (k c : Nat) (unit : Int) : Digits :=
  if c = Nat.pow 10 k then ⟨1, unit + k⟩ else ⟨c, unit⟩

/-- The shortest decimal that reads back as a positive magnitude.  Seventeen digits are always
enough. -/
def shortest (tie : Tie) (v : Magnitude) : Digits :=
  let attempt (k : Nat) : Option Digits :=
    let unit := v.leading - k + 1
    (neighbour? tie v unit).map (fun c => carry k c unit)
  ((List.range' 1 17).findSome? attempt).getD ⟨0, 0⟩

end Decimal

end BranchBound
