/-!
# Words

Counts are bounded by the words they are kept in, and the bits of a number are a word of their
own.  A word of `n` bits holds the natural numbers below `Word.bound n`.
-/

namespace BranchBound

namespace Word

/-- The natural numbers that fit so many bits are those below this one. -/
def bound (bits : Nat) : Nat := Nat.pow 2 bits

/-- Lists of words are shorter than this: their bytes are counted by a word of 63 bits. -/
def memory : Nat := bound 60

end Word

end BranchBound
