import BranchBound.IntegerProgram
import BranchBound.Search.Branching
import BranchBound.Search.Event
import BranchBound.Search.Frontier
import BranchBound.Search.Incumbent

/-!
# State of a search

What a search works on (`Task`) does not change while it runs; what it knows so far is its
`State`.  The best value still open (`State.bestBound?`) is the better of the frontier's and that of
the stalled subtrees, as long as they can improve on the incumbent, and otherwise the incumbent's
own.
-/

namespace BranchBound

namespace Search

/-- The occasions on which a search looks at the clock.  The count of explored nodes tells
occasions of one kind apart. -/
inductive Moment where
  /-- Before a node is taken from the frontier. -/
  | beforeNode (explored : Nat)
  /-- When a snapshot is reported. -/
  | atSnapshot (explored : Nat)
  /-- At the end. -/
  | atEnd
deriving DecidableEq

/-- Milliseconds since the start at each occasion. -/
abbrev Clock := Moment → Nat

/-- Everything a search is given. -/
structure Task (K σ : Type) where
  /-- The solver of relaxations. -/
  backend : Relaxation.Backend K σ
  /-- Direction of optimization. -/
  sense : Sense
  /-- Coefficients of the objective. -/
  objective : List K
  /-- Limits and tolerances. -/
  settings : Settings K
  /-- The clock. -/
  clock : Clock

/-- What a search knows. -/
structure State (K σ : Type) where
  /-- State of the backend. -/
  backend : σ
  /-- All nodes. -/
  tree : Tree K
  /-- The open nodes. -/
  frontier : Frontier K
  /-- The best point so far. -/
  incumbent : Incumbent K
  /-- Value of the root relaxation. -/
  rootValue : Option K
  /-- Nodes taken from the frontier. -/
  explored : Nat
  /-- Nodes closed because they could not improve on the incumbent. -/
  pruned : Nat
  /-- Nodes whose relaxation ended without a verdict. -/
  stalled : Nat
  /-- The best value of a parent of a stalled node. -/
  stalledBound : Option K

namespace Task

variable {K σ : Type} [Scalar K]

/-- The task of solving a program with a backend. -/
def ofProgram (backend : Relaxation.Backend K σ) (p : IntegerProgram K) (settings : Settings K)
    (clock : Clock) : Task K σ :=
  ⟨backend, p.sense, p.objective, settings, clock⟩

/-- The split of a relaxation's point, none if it is integral. -/
def split? (task : Task K σ) (x : List K) : Option (Decision K) :=
  Branching.split? task.settings.branching task.objective task.settings.integralityTol x

/-- The time is over at this moment. -/
def isLate (task : Task K σ) (moment : Moment) : Bool :=
  match task.settings.timeLimit with
  | none => false
  | some limit => decide (limit ≤ task.clock moment)

end Task

namespace State

variable {K σ : Type}

/-- Nothing known, with the backend in state `backend`. -/
def initial (sense : Sense) (backend : σ) : State K σ where
  backend := backend
  tree := .empty
  frontier := .empty sense
  incumbent := .empty sense
  rootValue := none
  explored := 0
  pruned := 0
  stalled := 0
  stalledBound := none

variable [Scalar K]

/-- The better of two values, the first if neither is. -/
def betterOf (sense : Sense) (a b : K) : K := if sense.improves b a then b else a

/-- The best value that an open or a stalled subtree could still reach. -/
def bestBound? (sense : Sense) (s : State K σ) : Option K :=
  let openBounds := (s.frontier.bestBound?.toList ++ s.stalledBound.toList).filter
    s.incumbent.canImprove
  match openBounds with
  | [] => s.incumbent.value?
  | bound :: rest => some (rest.foldl (betterOf sense) bound)

/-- Percent between the best open value and the incumbent, zero without an incumbent. -/
def gap (sense : Sense) (s : State K σ) : K :=
  match s.bestBound? sense, s.incumbent.value? with
  | some bound, some value => relativeGap bound value
  | _, _ => 0

/-- Percent between the root relaxation and the incumbent, zero if one is missing. -/
def integralityGap (s : State K σ) : K :=
  match s.rootValue, s.incumbent.value? with
  | some bound, some value => relativeGap bound value
  | _, _ => 0

/-- A stalled subtree might hold a better point than the incumbent. -/
def stallIsOpen (s : State K σ) : Bool :=
  match s.stalledBound with
  | none => false
  | some bound => s.incumbent.canImprove bound

end State

end Search

end BranchBound
