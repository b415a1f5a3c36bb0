import BranchBound.Decimal.Notation
import BranchBound.Search.Solution

/-!
# Results for the reader

A few lines that tell the result of a search, and the tree with one line for each node, indented by
its depth.  Values close to a whole number are shown as that number.
-/

namespace BranchBound

namespace Report

/-- A value this close to a whole number is shown as one. -/
def wholeTol : Binary64 := 1e-9

/-- A value, whole or with four places. -/
def shortValue (v : Binary64) : String :=
  if (v - v.round).abs < wholeTol then Decimal.plain v.round else Decimal.fixed 4 v

/-- The coordinates of a point as whole numbers, variables counted from one. -/
def pointText (x : List Binary64) : String :=
  ", ".intercalate (x.mapIdx (fun i v => s!"x{i + 1} = " ++ Decimal.plain v.round))

/-- The limit in the summary. -/
def limitWord : Search.Limit → String
  | .nodes => "NodeLimit"
  | .time => "TimeLimit"
  | .pivots => "IterationLimit"

/-- The part a node plays, in the tree. -/
def kindWord : Search.NodeKind → String
  | .root => "Root"
  | .integer => "Integer"
  | .branch => "Branch"
  | .pruned => "Pruned"
  | .infeasible => "Infeasible"
  | .optimal => "Optimal"

/-- The lines about the point. -/
def pointLines (s : Search.Solution Binary64) : List String :=
  match s.x, s.value with
  | some x, some value =>
      ["Solution:   " ++ pointText x, "Objective:  " ++ shortValue value]
  | _, _ => ["Solution:   none"]

/-- The line about what stopped the search, if something did. -/
def limitLines (s : Search.Solution Binary64) : List String :=
  match s.limit with
  | none => []
  | some limit => ["Stopped by: " ++ limitWord limit]

/-- The line about relaxations without a verdict, if there are any. -/
def stallLines (s : Search.Solution Binary64) : List String :=
  if s.stalled = 0 then []
  else [s!"Stalled:    {s.stalled} relaxations hit the pivot budget"]

/-- The lines that tell the result. -/
def summaryLines (s : Search.Solution Binary64) : List String :=
  ["Status:     " ++ s.status.text] ++ pointLines s ++
    [s!"Nodes:      {s.explored} explored, {s.pruned} pruned, {s.tree.length} created",
      "LP bound:   " ++ (match s.rootValue with
        | some v => shortValue v
        | none => "none"),
      "Gap:        " ++ Decimal.fixed 2 s.gap ++ "% (root relaxation " ++
        Decimal.fixed 2 s.integralityGap ++ "%)"] ++
    limitLines s ++ stallLines s ++ [s!"Time:       {s.elapsed} ms"]

/-- The line of a node. -/
def nodeLine (n : Search.Node Binary64) : String :=
  String.ofList (List.replicate (2 + n.depth * 2) ' ') ++ s!"#{n.id} " ++
    n.branchText.getD "root" ++ " [" ++ kindWord n.kind ++ "] " ++
    (match n.value with
      | some v => shortValue v
      | none => "-")

/-- The lines of the tree. -/
def treeLines (s : Search.Solution Binary64) : List String :=
  ["", "Search tree:"] ++ s.tree.map nodeLine

end Report

end BranchBound
