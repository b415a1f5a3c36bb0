import BranchBound.Relaxation
import BranchBound.Search.Progress
import BranchBound.Search.Solution

/-!
# What a search reports

Every step of a search that an onlooker may want to know of is an event.  Log lines and progress
messages are readings of the list of events, so the search itself writes nothing.
-/

namespace BranchBound

namespace Search

/-- Final counts of a search. -/
structure Summary (K : Type) where
  /-- The verdict. -/
  status : Status
  /-- Nodes taken from the frontier. -/
  explored : Nat
  /-- Nodes closed because they could not improve on the incumbent. -/
  pruned : Nat
  /-- Nodes whose relaxation ended without a verdict. -/
  stalled : Nat
  /-- Nodes that were ever in the frontier. -/
  added : Nat
  /-- Nodes taken out of the frontier. -/
  popped : Nat
  /-- Relaxations solved. -/
  solves : Nat
  /-- The final gap in percent. -/
  gap : K
  /-- Milliseconds spent. -/
  elapsed : Nat

/-- A step of a search. -/
inductive Event (K : Type) where
  /-- The search starts on a program of this size. -/
  | started (vars constraints : Nat) (sense : Sense)
  /-- The backend is asked for the relaxation under these bounds. -/
  | relaxing (bounds : List (Bound K))
  /-- The backend gives its answer. -/
  | relaxed (answer : Relaxation.Answer K)
  /-- The backend reports something. -/
  | linear (event : Simplex.Event K)
  /-- The root relaxation ran out of pivots. -/
  | rootStalled (pivots : Nat)
  /-- The root relaxation is integral. -/
  | rootIntegral (value : K)
  /-- The root relaxation is fractional. -/
  | rootFractional (value : K)
  /-- A node taken from the frontier cannot improve on the incumbent. -/
  | pruned (id : Nat) (value : K)
  /-- A node taken from the frontier has nothing to branch on. -/
  | nothingToBranch (id : Nat)
  /-- A node is split at a variable. -/
  | branching (id depth var : Nat) (value : K)
  /-- A relaxation ended without a verdict. -/
  | stalled (id : Nat) (verdict : Relaxation.Verdict)
  /-- A better point was found. -/
  | improved (id : Nat) (value : K)
  /-- A snapshot was taken, with the number of open nodes, the gap and the time. -/
  | progress (snapshot : Progress K) (openNodes : Nat) (gap : K) (elapsed : Nat)
  /-- The search ended. -/
  | finished (summary : Summary K)

/-- A run of a search. -/
abbrev Run (K : Type) : Type → Type := Recorded (Event K) Breakdown

/-- The snapshots among the events, in order. -/
def snapshots {K : Type} (events : List (Event K)) : List (Progress K) :=
  events.filterMap (fun
    | .progress snapshot .. => some snapshot
    | _ => none)

/-- The bounds of the relaxations asked for, in order. -/
def relaxations {K : Type} (events : List (Event K)) : List (List (Bound K)) :=
  events.filterMap (fun
    | .relaxing bounds => some bounds
    | _ => none)

/-- The answers to them, in order. -/
def answers {K : Type} (events : List (Event K)) : List (Relaxation.Answer K) :=
  events.filterMap (fun
    | .relaxed answer => some answer
    | _ => none)

end Search

end BranchBound
