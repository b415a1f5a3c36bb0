import BranchBound.Search.Tree

/-!
# Results of a search

The verdict of a search follows from two facts: whether something stopped it early, and whether it
has an incumbent (`Status.ofLimit`).
-/

namespace BranchBound

namespace Search

/-- What stopped a search early. -/
inductive Limit where
  /-- The node budget is used up. -/
  | nodes
  /-- The time is over. -/
  | time
  /-- A relaxation without a verdict hides a subtree that could hold a better point. -/
  | pivots
deriving DecidableEq, Inhabited, Repr

/-- Verdict of a search. -/
inductive Status where
  /-- The incumbent is optimal. -/
  | optimal
  /-- There is an incumbent, and better points are not excluded. -/
  | feasibleNotProven
  /-- There is no whole-number point. -/
  | infeasible
  /-- No point was found before a limit was reached. -/
  | nothingFound
deriving DecidableEq, Inhabited, Repr

namespace Status

/-- A point was found. -/
def hasSolution : Status → Bool
  | .optimal | .feasibleNotProven => true
  | .infeasible | .nothingFound => false

/-- The point is proven optimal. -/
def isOptimal (s : Status) : Bool := s == .optimal

/-- The verdict in words. -/
def text : Status → String
  | .optimal => "optimal"
  | .feasibleNotProven => "feasible (not proven optimal)"
  | .infeasible => "infeasible"
  | .nothingFound => "no solution (budget exhausted)"

/-- The verdict that belongs to a limit and to having an incumbent. -/
def ofLimit : Option Limit → (hasIncumbent : Bool) → Status
  | none, true => .optimal
  | none, false => .infeasible
  | some _, true => .feasibleNotProven
  | some _, false => .nothingFound

end Status

/-- Result of a search. -/
structure Solution (K : Type) where
  /-- The verdict. -/
  status : Status
  /-- The best point found. -/
  x : Option (List K)
  /-- Its value. -/
  value : Option K
  /-- Value of the root relaxation. -/
  rootValue : Option K
  /-- Percent between the best value that is still open and the incumbent. -/
  gap : K
  /-- Percent between the root relaxation and the incumbent. -/
  integralityGap : K
  /-- Nodes taken from the frontier. -/
  explored : Nat
  /-- Nodes closed because they could not improve on the incumbent. -/
  pruned : Nat
  /-- Nodes whose relaxation ended without a verdict. -/
  stalled : Nat
  /-- What stopped the search early. -/
  limit : Option Limit
  /-- All nodes. -/
  tree : List (Node K)
  /-- Milliseconds spent. -/
  elapsed : Nat
  /-- Times the incumbent was improved. -/
  updates : Nat
deriving DecidableEq

/-- Distance between two values in percent of the first; zero if one is not finite or the first is
nearly zero. -/
def relativeGap {K : Type} [Scalar K] (reference incumbent : K) : K :=
  if !Scalar.isFinite reference || !Scalar.isFinite incumbent then 0
  else if Scalar.abs reference ≤ (1e-10 : K) then 0
  else Scalar.abs (reference - incumbent) / Scalar.abs reference * (100 : Nat)

end Search

end BranchBound
