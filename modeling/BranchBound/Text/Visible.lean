import BranchBound.Text.Extending
import BranchBound.Text.Unprintable

/-!
# Texts with everything visible

`Visible.quote` writes a text between quotes so that every character of it can be seen: quotes,
backslashes and the common control characters get a short escape, and characters that leave no mark
of their own, or only one on the character before, are written by their number.  None of the
visible characters of ASCII is among those (`isUnseen_eq_false`).
-/

namespace BranchBound

namespace Visible

/-- The character leaves no mark of its own, or only one on the character before it. -/
def isUnseen (c : Char) : Bool :=
  CharRanges.unprintable.contains c || CharRanges.extending.contains c

/-- The visible characters of ASCII are seen. -/
theorem isUnseen_eq_false {c : Char} (low : 0x20 ≤ c.toNat) (high : c.toNat < 0x7f) :
    isUnseen c = false := by
  have controls : ¬(0x0 ≤ c.toNat ∧ c.toNat ≤ 0x1f) := by omega
  have rest : CharRanges.isAscendingFrom 0x7f (CharRanges.unprintable.drop 1) = true := by
    decide +kernel
  have marks : CharRanges.extending.isAscendingFrom 0x7f = true := by decide +kernel
  rw [isUnseen, CharRanges.contains_eq_false_of_lt marks high, Bool.or_false,
    show CharRanges.unprintable = (0x0, 0x1f) :: CharRanges.unprintable.drop 1 from rfl,
    CharRanges.contains_cons, CharRanges.contains_eq_false_of_lt rest high,
    decide_eq_false controls, Bool.or_false]

/-- A character as it is written between quotes. -/
def escape (c : Char) : List Char :=
  if c = '"' then ['\\', '"']
  else if c = '\\' then ['\\', '\\']
  else if c = '\x00' then ['\\', '0']
  else if c = '\t' then ['\\', 't']
  else if c = '\n' then ['\\', 'n']
  else if c = '\r' then ['\\', 'r']
  else if isUnseen c then ['\\', 'u', '\x7b'] ++ Nat.toDigits 16 c.toNat ++ ['\x7d']
  else [c]

/-- A text between quotes. -/
def quote (s : String) : String :=
  String.ofList ('"' :: s.toList.flatMap escape ++ ['"'])

end Visible

end BranchBound
