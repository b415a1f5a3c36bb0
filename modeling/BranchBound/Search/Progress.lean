import BranchBound.Scalar

/-!
# Progress snapshots

A snapshot tells how many nodes have been explored, the incumbent's value, and which share of the
node budget is used.
-/

namespace BranchBound

namespace Search

/-- Where a search stands. -/
structure Progress (K : Type) where
  /-- Nodes explored so far. -/
  explored : Nat
  /-- Value of the incumbent. -/
  best : Option K
  /-- Share of the node budget used, in percent. -/
  percent : Nat
deriving DecidableEq

namespace Progress

variable {K : Type} [Scalar K]

/-- Share of the budget in whole percent, at most a hundred; an empty budget is used up.  The
share is computed in scalars, quotient first. -/
def share (K : Type) [Scalar K] (explored maxNodes : Nat) : Nat :=
  if maxNodes = 0 then 100
  else
    let hundred : K := (100 : Nat)
    Scalar.truncate
      (Scalar.smaller (Scalar.round ((explored : K) / (maxNodes : K) * hundred)) hundred)

/-- The snapshot for the given counts. -/
def snapshot (explored maxNodes : Nat) (best : Option K) : Progress K :=
  ⟨explored, best, share K explored maxNodes⟩

end Progress

end Search

end BranchBound
