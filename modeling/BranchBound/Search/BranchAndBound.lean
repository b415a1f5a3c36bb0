import BranchBound.Search.State

/-!
# Best-first branch and bound

The root relaxation is solved first (`plantRoot`).  If it is fractional the root is the first open
node, and nodes are taken from the frontier, best value first, until it is empty or a limit is
reached (`grow`).  A node that can still improve on the incumbent is split into two children
(`explore`), and each child is classified by its relaxation (`classify`): it is integral and may
replace the incumbent, it is fractional and opens, or it closes.

A child whose relaxation ends without a verdict is given up, but its parent's value stays open: a
search that only such nodes keep from being complete ends with the limit `pivots`.
-/

namespace BranchBound

namespace Search

variable {K σ : Type} [Scalar K] [PlainText K]

/-! ## The root -/

/-- Where the search goes after the root relaxation. -/
inductive Start where
  /-- The root settles the program. -/
  | settled
  /-- The root is open. -/
  | growing
deriving DecidableEq

/-- The root node with the answer of its relaxation and the part it plays. -/
def rootNode (answer : Relaxation.Answer K) (kind : NodeKind) : Node K :=
  { Node.root.withRelaxation answer.status answer.x answer.value with kind := kind }

/-- Make the root out of its relaxation's answer. -/
def settleRoot (task : Task K σ) (s : State K σ) (answer : Relaxation.Answer K) :
    Run K (State K σ × Start) := do
  let s := { s with rootValue := answer.value }
  let planted (kind : NodeKind) : State K σ :=
    { s with tree := s.tree.push (rootNode answer kind) }
  match answer.verdict with
  | .unbounded => Recorded.stop (.failed .unbounded)
  | .infeasible => return (planted .infeasible, .settled)
  | .pivotLimit =>
    Recorded.report (.rootStalled answer.pivots)
    return ({ planted .infeasible with stalled := s.stalled + 1 }, .settled)
  | .optimal =>
    let value := answer.value.getD task.sense.worstValue
    match task.split? answer.x with
    | none =>
      Recorded.report (.rootIntegral value)
      return ({ planted .optimal with incumbent := s.incumbent.update answer.x value }, .settled)
    | some _ =>
      Recorded.report (.rootFractional value)
      return ({ planted .branch with frontier := s.frontier.push s.tree.nextId value }, .growing)

/-- Ask the backend for a relaxation. -/
def relax (task : Task K σ) (s : State K σ) (bounds : List (Bound K)) :
    Run K (Relaxation.Answer K × State K σ) := do
  Recorded.report (.relaxing bounds)
  let (answer, backend) ← (task.backend.solve s.backend bounds).mapEvents Event.linear
  Recorded.report (.relaxed answer)
  return (answer, { s with backend := backend })

/-- Solve the root relaxation and make the root. -/
def plantRoot (task : Task K σ) (s : State K σ) : Run K (State K σ × Start) := do
  let (answer, s) ← relax task s []
  settleRoot task s answer

/-! ## Children -/

/-- Note that a subtree below a node of this value was given up. -/
def noteStall (sense : Sense) (s : State K σ) (parentValue : K) : State K σ :=
  let bound := match s.stalledBound with
    | none => parentValue
    | some bound => if sense.improves parentValue bound then parentValue else bound
  { s with stalled := s.stalled + 1, stalledBound := some bound }

/-- The part a freshly relaxed child plays, with incumbent and counts brought up to date. -/
def classify (task : Task K σ) (s : State K σ) (id : Nat) (parentValue : K)
    (answer : Relaxation.Answer K) : Run K (NodeKind × State K σ) := do
  match answer.verdict, answer.value with
  | .infeasible, _ => return (.infeasible, s)
  | .optimal, some value =>
    match task.split? answer.x with
    | none =>
      if s.incumbent.canImprove value then
        Recorded.report (.improved id value)
      return (.integer, { s with incumbent := s.incumbent.update answer.x value })
    | some _ =>
      if s.incumbent.canImprove value then return (.branch, s)
      else return (.pruned, { s with pruned := s.pruned + 1 })
  | verdict, _ =>
    Recorded.report (.stalled id verdict)
    return (.infeasible, noteStall task.sense s parentValue)

/-- Create, relax and classify the child of `parent` under one more bound, and open it if it is
fractional. -/
def addChild (task : Task K σ) (parent : Node K) (parentValue : K) (s : State K σ)
    (bound : Bound K) : Run K (State K σ) := do
  let id := s.tree.nextId
  let child := parent.child id bound
  let (answer, s) ← relax task s child.bounds
  let (kind, s) ← classify task s id parentValue answer
  let child := { child.withRelaxation answer.status answer.x answer.value with kind := kind }
  let s := { s with tree := s.tree.push child }
  if kind = .branch then
    return { s with frontier := s.frontier.push id (answer.value.getD parentValue) }
  else return s

/-! ## Nodes from the frontier -/

/-- Close a node that cannot improve on the incumbent. -/
def close (s : State K σ) (id : Nat) : State K σ :=
  { s with
    tree := s.tree.modify id (fun n => { n with kind := .pruned })
    pruned := s.pruned + 1 }

/-- Process a node taken from the frontier. -/
def explore (task : Task K σ) (s : State K σ) (id : Nat) : Run K (State K σ) := do
  let node ← Recorded.ofExcept ((s.tree.node id).mapError .fault)
  let value := node.value.getD task.sense.worstValue
  if !s.incumbent.canImprove value then
    Recorded.report (.pruned id value)
    return close s id
  else
    match task.split? node.x with
    | none =>
      Recorded.report (.nothingToBranch id)
      return s
    | some decision =>
      Recorded.report (.branching id node.depth decision.var decision.value)
      let s ← addChild task node value s decision.down
      addChild task node value s decision.up

/-- Take a snapshot if one is due. -/
def snapshot (task : Task K σ) (s : State K σ) : Run K Unit :=
  if 0 < task.settings.progressEvery ∧ s.explored % task.settings.progressEvery = 0 then
    Recorded.report
      (.progress (.snapshot s.explored task.settings.maxNodes s.incumbent.value?)
        s.frontier.size (s.gap task.sense) (task.clock (.atSnapshot s.explored)))
  else return ()

/-- Process a node that was just taken from the frontier, leaving `frontier`. -/
def visit (task : Task K σ) (s : State K σ) (id : Nat) (frontier : Frontier K) :
    Run K (State K σ) := do
  let s ← explore task { s with frontier := frontier, explored := s.explored + 1 } id
  snapshot task s
  return s

/-- Take nodes from the frontier until it is empty or a limit is reached, at most `budget` of them.
An empty frontier is noticed before a limit, and the node budget before the time. -/
def grow (task : Task K σ) : (budget : Nat) → State K σ → Run K (State K σ × Option Limit)
  | budget, s => do
    match s.frontier.pop? with
    | none => return (s, none)
    | some (id, frontier) =>
      match budget with
      | 0 => return (s, some .nodes)
      | budget + 1 =>
        if task.isLate (.beforeNode s.explored) then return (s, some .time)
        else grow task budget (← visit task s id frontier)

/-! ## The whole search -/

/-- The limit a search ends with: one that stopped it, or else stalled subtrees left open. -/
def finalLimit (s : State K σ) (limit : Option Limit) : Option Limit :=
  match limit with
  | some l => some l
  | none => if s.stallIsOpen then some .pivots else none

/-- Counts for the final report. -/
def summarize (task : Task K σ) (s : State K σ) (status : Status) : Summary K where
  status := status
  explored := s.explored
  pruned := s.pruned
  stalled := s.stalled
  added := s.frontier.added
  popped := s.frontier.popped
  solves := task.backend.numSolves s.backend
  gap := s.gap task.sense
  elapsed := task.clock .atEnd

/-- The result of a search that ended with this state and limit. -/
def finish (task : Task K σ) (s : State K σ) (limit : Option Limit) : Solution K :=
  let limit := finalLimit s limit
  { status := .ofLimit limit s.incumbent.hasSolution
    x := s.incumbent.point?
    value := s.incumbent.value?
    rootValue := s.rootValue
    gap := s.gap task.sense
    integralityGap := s.integralityGap
    explored := s.explored
    pruned := s.pruned
    stalled := s.stalled
    limit := limit
    tree := s.tree.nodes
    elapsed := task.clock .atEnd
    updates := s.incumbent.updates }

/-- Report the start and make the root. -/
def start (task : Task K σ) (backend : σ) : Run K (State K σ × Start) := do
  Recorded.report
    (.started (task.backend.numVars backend) (task.backend.numConstraints backend) task.sense)
  plantRoot task (State.initial task.sense backend)

/-- Search from the root until the frontier is empty or a limit is reached. -/
def run (task : Task K σ) (backend : σ) : Run K (State K σ × Option Limit) := do
  match ← start task backend with
  | (s, .settled) => return (s, none)
  | (s, .growing) => grow task task.settings.maxNodes s

/-- Report the end and state the result. -/
def conclude (task : Task K σ) (s : State K σ) (limit : Option Limit) : Run K (Solution K) := do
  let solution := finish task s limit
  Recorded.report (.finished (summarize task s solution.status))
  return solution

/-- Search and state the result. -/
def solve (task : Task K σ) (backend : σ) : Run K (Solution K) := do
  let (s, limit) ← run task backend
  conclude task s limit

end Search

namespace IntegerProgram

variable {K : Type} [Scalar K] [PlainText K]

/-- The search for the best whole-number point by the simplex method. -/
def task (p : IntegerProgram K) (settings : Search.Settings K) (clock : Search.Clock) :
    Search.Task K Nat :=
  .ofProgram (Relaxation.simplexBackend settings.linear p.relaxation) p settings clock

/-- Check an integer program and solve it if it is sound. -/
def solve (p : IntegerProgram K) (settings : Search.Settings K) (clock : Search.Clock) :
    Search.Run K (Search.Solution K) :=
  match p.check with
  | .error defect => Recorded.stop (.failed (.invalidProblem (.defect defect)))
  | .ok () => Search.solve (p.task settings clock) 0

end IntegerProgram

end BranchBound
