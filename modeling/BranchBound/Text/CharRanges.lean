/-!
# Sets of characters as ranges

A property of characters that no rule describes is a list of ranges of code points, each with both
of its ends.  In an ascending list (`isAscending`) the ranges are apart and in order, so that no
character before the first range is in any of them (`contains_eq_false_of_lt`).
-/

namespace BranchBound

/-- Ranges of code points, ends included. -/
abbrev CharRanges := List (Nat × Nat)

namespace CharRanges

/-- The character lies in one of the ranges. -/
def contains (ranges : CharRanges) (c : Char) : Bool :=
  ranges.any (fun (low, high) => decide (low ≤ c.toNat ∧ c.toNat ≤ high))

/-- Every range is in order and ends with at least one code point before the next, and the first
one starts at `start` or later. -/
def isAscendingFrom : (start : Nat) → CharRanges → Bool
  | _, [] => true
  | start, (low, high) :: rest =>
    decide (start ≤ low) && decide (low ≤ high) && isAscendingFrom (high + 2) rest

/-- The ranges are apart and in order. -/
def isAscending (ranges : CharRanges) : Bool := isAscendingFrom 0 ranges

/-- A character is in the first range or in one of the others. -/
theorem contains_cons (low high : Nat) (rest : CharRanges) (c : Char) :
    contains ((low, high) :: rest) c =
      (decide (low ≤ c.toNat ∧ c.toNat ≤ high) || rest.contains c) := rfl

/-- A character before the start of an ascending list is in none of its ranges. -/
theorem contains_eq_false_of_lt {start : Nat} {ranges : CharRanges} {c : Char}
    (ascending : isAscendingFrom start ranges = true) (lt : c.toNat < start) :
    ranges.contains c = false := by
  induction ranges generalizing start with
  | nil => rfl
  | cons range rest ih =>
    obtain ⟨low, high⟩ := range
    simp only [isAscendingFrom, Bool.and_eq_true, decide_eq_true_eq] at ascending
    obtain ⟨⟨start_le, low_le⟩, tail⟩ := ascending
    have outside : ¬(low ≤ c.toNat ∧ c.toNat ≤ high) := by omega
    rw [contains_cons, ih tail (by omega), decide_eq_false outside, Bool.or_false]

end CharRanges

end BranchBound
