import BranchBound.Session
import BranchBound.Wire.Linear

/-!
# Integer programs and searches in JSON

Schemas for integer programs, requests, settings, trees, snapshots and results.  A program of a
request says `maximize` instead of naming its sense, and minimizes if it says nothing.
-/

namespace BranchBound

open Json (Schema Fields)

namespace IntegerProgram

/-- Integer programs in JSON. -/
def schema : Schema (IntegerProgram Binary64) :=
  .record "MipProblem"
    (.need "c" (.list .real) <| .need "A" (.list (.list .real)) <| .need "b" (.list .real) <|
      .withDefault "maximize" false .flag <| .nil)
    (fun (c, a, b, maximize, ()) => .ofParts c a b maximize)
    (fun p =>
      (p.objective, p.relaxation.rows, p.relaxation.limits, p.sense.isMaximize, ()))
    ofParts_parts

end IntegerProgram

namespace BranchingRule

/-- The rule by name. -/
def name : BranchingRule → String
  | .mostFractional => "most_fractional"
  | .firstFractional => "first_fractional"
  | .maxCoefficient => "max_coefficient"

/-- Branching rules in JSON. -/
def schema : Schema BranchingRule :=
  .oneOf [.mostFractional, .firstFractional, .maxCoefficient] name (by intro v; cases v <;> rfl)

end BranchingRule

namespace Direction

/-- The direction by name. -/
def name : Direction → String
  | .upper => "upper"
  | .lower => "lower"

/-- Directions in JSON. -/
def schema : Schema Direction :=
  .oneOf [.upper, .lower] name (by intro v; cases v <;> rfl)

end Direction

/-- Bounds in JSON. -/
def Bound.schema : Schema (Bound Binary64) :=
  .record "BoundConstraint"
    (.need "var" .size <| .need "direction" Direction.schema <| .need "value" .real <| .nil)
    (fun (var, direction, value, ()) => ⟨var, direction, value⟩)
    (fun b => (b.var, b.direction, b.value, ()))
    (fun _ => rfl)

namespace Search

/-- Settings of a search in JSON. -/
def Settings.schema : Schema (Settings Binary64) :=
  let d : Settings Binary64 := .standard
  .record "MipSettings"
    (.withDefault "max_nodes" d.maxNodes .count <|
      .withDefault "time_limit_ms" d.timeLimit (.optional .count) <|
      .withDefault "int_feas_tol" d.integralityTol .real <|
      .withDefault "branching_rule" d.branching BranchingRule.schema <|
      .withDefault "lp_settings" d.linear LinearProgram.Settings.schema <|
      .withDefault "verbose" d.verbose .flag <|
      .withDefault "progress_freq" d.progressEvery .count <| .nil)
    (fun (maxNodes, timeLimit, tol, branching, linear, verbose, every, ()) =>
      ⟨maxNodes, timeLimit, tol, branching, linear, verbose, every⟩)
    (fun s =>
      (s.maxNodes, s.timeLimit, s.integralityTol, s.branching, s.linear, s.verbose,
        s.progressEvery, ()))
    (fun _ => rfl)

namespace Status

/-- The verdict by name. -/
def name : Status → String
  | .optimal => "optimal"
  | .feasibleNotProven => "feasible_not_proven"
  | .infeasible => "infeasible"
  | .nothingFound => "no_incumbent_budget_exhausted"

/-- Verdicts in JSON. -/
def schema : Schema Status :=
  .oneOf [.optimal, .feasibleNotProven, .infeasible, .nothingFound] name
    (by intro v; cases v <;> rfl)

end Status

namespace Limit

/-- The limit by name. -/
def name : Limit → String
  | .nodes => "node_limit"
  | .time => "time_limit"
  | .pivots => "iteration_limit"

/-- Limits in JSON. -/
def schema : Schema Limit :=
  .oneOf [.nodes, .time, .pivots] name (by intro v; cases v <;> rfl)

end Limit

namespace NodeKind

/-- The part a node plays, by name. -/
def name : NodeKind → String
  | .root => "root"
  | .integer => "integer"
  | .branch => "branch"
  | .pruned => "pruned"
  | .infeasible => "infeasible"
  | .optimal => "optimal"

/-- Parts of nodes in JSON. -/
def schema : Schema NodeKind :=
  .oneOf [.root, .integer, .branch, .pruned, .infeasible, .optimal] name
    (by intro v; cases v <;> rfl)

end NodeKind

/-- Nodes in JSON. -/
def Node.schema : Schema (Node Binary64) :=
  .record "SearchNode"
    (.need "id" .size <| .maybe "parent_id" .size <|
      .need "constraints" (.list Bound.schema) <| .need "lp_solution" (.list .real) <|
      .maybe "lp_value" .real <| .need "lp_status" LinearProgram.Status.schema <|
      .need "node_type" NodeKind.schema <| .need "depth" .size <|
      .maybe "branch_var" .size <| .maybe "branch_desc" .text <| .nil)
    (fun (id, parent, bounds, x, value, status, kind, depth, branchVar, branchText, ()) =>
      ⟨id, parent, bounds, x, value, status, kind, depth, branchVar, branchText⟩)
    (fun n =>
      (n.id, n.parent, n.bounds, n.x, n.value, n.status, n.kind, n.depth, n.branchVar,
        n.branchText, ()))
    (fun _ => rfl)

/-- Snapshots in JSON. -/
def Progress.schema : Schema (Progress Binary64) :=
  .record "Progress"
    (.need "nodes_explored" .count <| .maybe "best_value" .real <|
      .need "percent" (.natural "u8" (Word.bound 8)) <| .nil)
    (fun (explored, best, percent, ()) => ⟨explored, best, percent⟩)
    (fun p => (p.explored, p.best, p.percent, ()))
    (fun _ => rfl)

/-- Results of a search in JSON. -/
def Solution.schema : Schema (Solution Binary64) :=
  .record "MipSolution"
    (.need "status" Status.schema <| .maybe "solution" (.list .real) <|
      .maybe "optimal_value" .real <| .maybe "lp_relaxation" .real <|
      .need "gap" .real <| .need "integrality_gap" .real <|
      .need "nodes_explored" .count <| .need "nodes_pruned" .count <|
      .withDefault "nodes_stalled" 0 .count <| .maybe "limit" Limit.schema <|
      .need "tree" (.list Node.schema) <| .need "elapsed_ms" .count <|
      .need "incumbent_updates" .count <| .nil)
    (fun (status, x, value, rootValue, gap, integralityGap, explored, pruned, stalled, limit, tree,
        elapsed, updates, ()) =>
      ⟨status, x, value, rootValue, gap, integralityGap, explored, pruned, stalled, limit, tree,
        elapsed, updates⟩)
    (fun s =>
      (s.status, s.x, s.value, s.rootValue, s.gap, s.integralityGap, s.explored, s.pruned,
        s.stalled, s.limit, s.tree, s.elapsed, s.updates, ()))
    (fun _ => rfl)

end Search

/-- Requests in JSON. -/
def Request.schema : Schema (Request Binary64) :=
  .record "SolveRequest"
    (.need "problem" IntegerProgram.schema <|
      .withDefault "branch_strategy" .mostFractional BranchingRule.schema <|
      .withDefault "max_nodes" none (.optional .count) <| .nil)
    (fun (problem, branching, maxNodes, ()) => ⟨problem, branching, maxNodes⟩)
    (fun r => (r.problem, r.branching, r.maxNodes, ()))
    (fun _ => rfl)

end BranchBound
