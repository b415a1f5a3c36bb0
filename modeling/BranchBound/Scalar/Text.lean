import BranchBound.Decimal.Notation
import BranchBound.Scalar.Binary64
import BranchBound.Scalar.Exact

/-!
# Scalars as text

Descriptions of bounds name a value.  A double-precision number is written as the shortest decimal
that reads back, without an exponent; a rational as a whole number or as a quotient of two.
-/

namespace BranchBound

/-- Values that can be named in a description. -/
class PlainText (V : Type) where
  /-- The value as text. -/
  plainText : V → String

export PlainText (plainText)

instance : PlainText Binary64 := ⟨Decimal.plain⟩

instance : PlainText Rat where
  plainText v := if v.den = 1 then toString v.num else s!"{v.num}/{v.den}"

end BranchBound
