import BranchBound.Word

/-!
# Double-precision numbers

A double-precision number is a word of 64 bits: a sign, eleven bits of exponent and 52 of fraction.
An undefined value has a sign like any other, and here it is kept: the total order (`position`)
looks at it.

Arithmetic on defined values is that of `Float`.  An undefined operand is also the result, the
first one if there are two, and an operation that has no value for its operands gives `invalid`.
-/

namespace BranchBound

/-- A double-precision number by its 64 bits. -/
structure Binary64 where
  /-- The bits as a word. -/
  bits : UInt64
deriving DecidableEq, Inhabited

namespace Binary64

/-! ## Signs and classes -/

/-- The bit of the sign. -/
def signBit : UInt64 := 0x8000000000000000

/-- The bits without the sign. -/
def magnitudeBits (v : Binary64) : UInt64 := v.bits &&& 0x7fffffffffffffff

/-- The value above every number. -/
def infinity : Binary64 := ⟨0x7ff0000000000000⟩

/-- The undefined value that stands for a missing number. -/
def nan : Binary64 := ⟨0x7ff8000000000000⟩

/-- The undefined value that an operation gives when it has no other.  Its sign is set. -/
def invalid : Binary64 := ⟨0xfff8000000000000⟩

/-- The value is undefined. -/
def isNaN (v : Binary64) : Bool := decide (infinity.bits < v.magnitudeBits)

/-- The value is a number, neither undefined nor infinite. -/
def isFinite (v : Binary64) : Bool := decide (v.magnitudeBits < infinity.bits)

/-- The value is zero of either sign. -/
def isZero (v : Binary64) : Bool := v.magnitudeBits == 0

/-- The same magnitude with the other sign. -/
protected def neg (v : Binary64) : Binary64 := ⟨v.bits ^^^ signBit⟩

/-- The magnitude. -/
def abs (v : Binary64) : Binary64 := ⟨v.magnitudeBits⟩

/-! ## Arithmetic -/

/-- The number that is computed with. -/
def toFloat (v : Binary64) : Float := Float.ofBits v.bits

/-- The result of a computation. -/
def ofFloat (v : Float) : Binary64 := if v.isNaN then invalid else ⟨v.toBits⟩

/-- An undefined operand as it comes out of an operation. -/
def quiet (v : Binary64) : Binary64 := ⟨v.bits ||| 0x0008000000000000⟩

/-- An operation on one number. -/
def unary (f : Float → Float) (v : Binary64) : Binary64 :=
  if v.isNaN then v.quiet else ofFloat (f v.toFloat)

/-- An operation on two numbers. -/
def binary (f : Float → Float → Float) (v w : Binary64) : Binary64 :=
  if v.isNaN then v.quiet else if w.isNaN then w.quiet else ofFloat (f v.toFloat w.toFloat)

/-- The number nearest to a natural number. -/
def ofNat (n : Nat) : Binary64 := ofFloat (Float.ofNat n)

/-- The number nearest to `m · 10^e`, or to `m · 10^-e` if the exponent is negative. -/
def ofScientific (m : Nat) (negative : Bool) (e : Nat) : Binary64 :=
  ofFloat (Float.ofScientific m negative e)

instance : Zero Binary64 := ⟨⟨0⟩⟩
instance : One Binary64 := ⟨⟨0x3ff0000000000000⟩⟩
instance : Add Binary64 := ⟨binary (fun v w => v + w)⟩
instance : Sub Binary64 := ⟨binary (fun v w => v - w)⟩
instance : Mul Binary64 := ⟨binary (fun v w => v * w)⟩
instance : Div Binary64 := ⟨binary (fun v w => v / w)⟩
instance : Neg Binary64 := ⟨Binary64.neg⟩
instance : LT Binary64 := ⟨fun v w => v.toFloat < w.toFloat⟩
instance : LE Binary64 := ⟨fun v w => v.toFloat ≤ w.toFloat⟩
instance : NatCast Binary64 := ⟨ofNat⟩
instance : OfScientific Binary64 := ⟨ofScientific⟩

instance : DecidableLT Binary64 := fun v w => inferInstanceAs (Decidable (v.toFloat < w.toFloat))
instance : DecidableLE Binary64 := fun v w => inferInstanceAs (Decidable (v.toFloat ≤ w.toFloat))

/-- Largest whole number not above the value. -/
def floor : Binary64 → Binary64 := unary Float.floor

/-- Smallest whole number not below the value. -/
def ceil : Binary64 → Binary64 := unary Float.ceil

/-- Nearest whole number; a half goes away from zero. -/
def round : Binary64 → Binary64 := unary Float.round

/-- The larger of two numbers; an undefined one loses. -/
def larger (v w : Binary64) : Binary64 :=
  if v.isNaN then w else if w.isNaN then v else if v < w then w else v

/-- The smaller of two numbers; an undefined one loses. -/
def smaller (v w : Binary64) : Binary64 :=
  if v.isNaN then w else if w.isNaN then v else if w < v then w else v

/-- Whole part, cut off to `[0, 2^64)`; zero for an undefined value. -/
def truncate (v : Binary64) : Nat := v.toFloat.toUInt64.toNat

/-! ## The total order -/

/-- Place on the line of all bit patterns.  A set sign reverses the order of the rest. -/
def position (v : Binary64) : Int :=
  if v.bits.toNat < Word.bound 63 then (v.bits.toNat : Int)
  else (Word.bound 63 : Int) - 1 - (v.bits.toNat : Int)

/-- Different numbers have different places. -/
theorem position_injective {v w : Binary64} (h : v.position = w.position) : v = w := by
  have half : Word.bound 63 = 9223372036854775808 := rfl
  have hv := v.bits.toNat_lt
  have hw := w.bits.toNat_lt
  have same : v.bits.toNat = w.bits.toNat := by
    simp only [position, half] at h
    split at h <;> split at h <;> omega
  exact congrArg Binary64.mk (UInt64.toNat_inj.1 same)

end Binary64

end BranchBound
