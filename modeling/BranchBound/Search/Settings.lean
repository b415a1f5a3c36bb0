import BranchBound.LinearProgram.Solution

/-!
# Settings of a search

How the branching variable is chosen, when the search gives up, and how often it reports.
-/

namespace BranchBound

/-- Choice of the variable to branch on. -/
inductive BranchingRule where
  /-- The value farthest from a whole number. -/
  | mostFractional
  /-- The lowest variable. -/
  | firstFractional
  /-- The largest product of objective coefficient and distance from a whole number. -/
  | maxCoefficient
deriving DecidableEq, Inhabited, Repr

namespace Search

/-- Limits, tolerances and reporting of a search. -/
structure Settings (K : Type) where
  /-- Most nodes to explore. -/
  maxNodes : Nat
  /-- Milliseconds to run, no limit if none. -/
  timeLimit : Option Nat
  /-- A value this close to a whole number counts as one. -/
  integralityTol : K
  /-- Choice of the branching variable. -/
  branching : BranchingRule
  /-- Settings of the relaxations. -/
  linear : LinearProgram.Settings K
  /-- Report the course of the search more loudly. -/
  verbose : Bool
  /-- Report progress whenever this many more nodes are explored; never if zero. -/
  progressEvery : Nat
deriving DecidableEq

namespace Settings

variable {K : Type} [Scalar K]

/-- The settings in force when nothing else is said. -/
def standard : Settings K where
  maxNodes := 1000
  timeLimit := none
  integralityTol := 1e-6
  branching := .mostFractional
  linear := .standard
  verbose := false
  progressEvery := 10

/-- Stop after so many seconds, cut to whole milliseconds. -/
def withTimeLimit (s : Settings K) (seconds : K) : Settings K :=
  { s with timeLimit := some (Scalar.truncate (seconds * (1000 : Nat))) }

end Settings

end Search

end BranchBound
