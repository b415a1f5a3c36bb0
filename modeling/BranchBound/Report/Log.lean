import BranchBound.Session

/-!
# Log lines

A log line is a reading of an event: how grave it is, which part of the solver it comes from, and a
sentence.  Events that are not logged have none.  A search whose settings ask for it reports its
course as information, and otherwise as detail.
-/

namespace BranchBound

namespace Report

/-- How grave a message is, the gravest first. -/
inductive Level where
  | error
  | warn
  | info
  | debug
  | trace
deriving DecidableEq, Inhabited, Repr

namespace Level

/-- The level in capitals. -/
def name : Level → String
  | .error => "ERROR"
  | .warn => "WARN"
  | .info => "INFO"
  | .debug => "DEBUG"
  | .trace => "TRACE"

/-- Place on the scale, the gravest at zero. -/
def place : Level → Nat
  | .error => 0
  | .warn => 1
  | .info => 2
  | .debug => 3
  | .trace => 4

/-- A message of this level is shown when the least grave one shown is `limit`. -/
def isShown (limit level : Level) : Bool := decide (level.place ≤ limit.place)

end Level

/-- A message, with its level and the part of the solver it comes from. -/
structure LogLine where
  /-- How grave it is. -/
  level : Level
  /-- Where it comes from. -/
  target : String
  /-- The message. -/
  text : String
deriving DecidableEq

/-- The lines that are shown when the least grave one shown is `limit`. -/
def shown (limit : Level) (lines : List LogLine) : List LogLine :=
  lines.filter (fun line => Level.isShown limit line.level)

/-! ## Names in messages -/

/-- The sense in a message. -/
def senseWord : Sense → String
  | .minimize => "Minimize"
  | .maximize => "Maximize"

/-- The verdict on a relaxation in a message. -/
def verdictWord : Relaxation.Verdict → String
  | .optimal => "Optimal"
  | .infeasible => "Infeasible"
  | .unbounded => "Unbounded"
  | .pivotLimit => "IterationLimit"

/-! ## Events as lines -/

/-- Values in messages have six places. -/
def valueText (v : Binary64) : String := Decimal.fixed 6 v

/-- Gaps in messages have two places. -/
def percentText (v : Binary64) : String := Decimal.fixed 2 v ++ "%"

/-- Small amounts in messages have four digits and a power of ten. -/
def amountText (v : Binary64) : String := Decimal.scientific 3 v

/-- Milliseconds as seconds with one place. -/
def secondsText (elapsed : Nat) : String := Decimal.fixed 1 (Binary64.ofNat elapsed / 1000.0) ++ "s"

/-- Where the lines of the pivot iteration come from. -/
def simplexTarget : String := "solver_core::simplex"

/-- Where the lines of the first phase come from. -/
def phaseOneTarget : String := "solver_core::simplex::phase_one"

/-- Where the lines of the search come from. -/
def searchTarget : String := "solver_mip::search::tree"

/-- Where the lines of the background solver come from. -/
def sessionTarget : String := "solver_mip::worker"

/-- The line of an event of the simplex method. -/
def simplexLine : Simplex.Event Binary64 → Option LogLine
  | .pivot number column row leaving =>
      some ⟨.trace, simplexTarget,
        s!"pivot {number}: column {column} enters, row {row} (column {leaving}) leaves"⟩
  | .exchange _ _ => none
  | .artificialRay =>
      some ⟨.warn, phaseOneTarget,
        "phase 1 reported an unbounded ray; treating the system as infeasible"⟩
  | .artificialOptimum amount =>
      some ⟨.debug, phaseOneTarget,
        "phase 1 optimum " ++ amountText amount ++ " > 0: infeasible"⟩
  | .redundantRow row => some ⟨.debug, phaseOneTarget, s!"dropping redundant row {row}"⟩
  | .violation amount =>
      some ⟨.trace, simplexTarget, "simplex: max row violation " ++ amountText amount⟩
  | .finished status pivots constraints vars =>
      some ⟨.debug, simplexTarget,
        "simplex: " ++ status.name ++ s!" after {pivots} pivots (m={constraints}, n={vars})"⟩

/-- The value of the incumbent in a message. -/
def incumbentText : Option Binary64 → String
  | none => "none"
  | some v => valueText v

/-- The line of a snapshot. -/
def snapshotText (p : Search.Progress Binary64) (openNodes : Nat) (gap : Binary64) (elapsed : Nat) :
    String :=
  s!"Nodes: {p.explored} ({openNodes} open) | Incumbent: " ++ incumbentText p.best ++
    " | Gap: " ++ percentText gap ++ s!" | Budget: {p.percent}% | Time: " ++ secondsText elapsed

/-- The line at the end of a search. -/
def summaryText (s : Search.Summary Binary64) : String :=
  "B&B finished: " ++ s.status.text ++
    s!" | Nodes: {s.explored} explored, {s.pruned} pruned, {s.stalled} stalled" ++
    s!" | Queue: {s.added} pushed, {s.popped} popped | LP solves: {s.solves} | Gap: " ++
    percentText s.gap ++ s!" | Time: {s.elapsed}ms"

/-- The line of an event of a search. -/
def searchLine (verbose : Bool) (event : Search.Event Binary64) : Option LogLine :=
  let course : Level := if verbose then .info else .debug
  let line (level : Level) (text : String) : Option LogLine := some ⟨level, searchTarget, text⟩
  match event with
  | .started vars constraints sense =>
      line course (s!"Solving MILP: {vars} variables, {constraints} constraints, " ++
        senseWord sense)
  | .relaxing _ | .relaxed _ => none
  | .linear e => simplexLine e
  | .rootStalled pivots =>
      line .warn
        s!"Root LP hit the iteration limit after {pivots} pivots; treating as infeasible"
  | .rootIntegral value => line .debug ("Root relaxation is integral: obj=" ++ valueText value)
  | .rootFractional value =>
      line .debug ("Root relaxation: obj=" ++ valueText value ++ ", branching")
  | .pruned id value => line .debug (s!"Node {id} pruned at dequeue: obj=" ++ valueText value)
  | .nothingToBranch id =>
      line .warn s!"Node {id} in the frontier has an integral relaxation; skipping"
  | .branching id depth var value =>
      line .debug (s!"Node {id} (depth {depth}): branching on x{var + 1} = " ++ valueText value)
  | .stalled id verdict =>
      line .warn (s!"Node {id} relaxation ended as " ++ verdictWord verdict ++
        "; treating as infeasible")
  | .improved id value => line course (s!"New incumbent at node {id}: obj=" ++ valueText value)
  | .progress snapshot openNodes gap elapsed =>
      line course (snapshotText snapshot openNodes gap elapsed)
  | .finished summary => line course (summaryText summary)

/-- The lines of a linear solve, in order. -/
def simplexLog (events : List (Simplex.Event Binary64)) : List LogLine :=
  events.filterMap simplexLine

/-- The lines of a search, in order. -/
def searchLog (verbose : Bool) (events : List (Search.Event Binary64)) : List LogLine :=
  events.filterMap (searchLine verbose)

/-- The lines of a background solve, in order. -/
def sessionLog (verbose : Bool) (events : List (Search.Event Binary64)) : List LogLine :=
  ⟨.debug, sessionTarget, "Spawned solver thread"⟩ :: searchLog verbose events

end Report

end BranchBound
