import BranchBound.CommandLine.Arguments
import BranchBound.IntegerProgram
import BranchBound.Scalar.Binary64

/-!
# Built-in programs

Three small programs to try the solver on: one with a fractional relaxation and two whose
relaxations are integral.
-/

namespace BranchBound

namespace CommandLine

namespace Demo

/-- Heading of a built-in program. -/
def title : Demo → String
  | .knapsack => "Knapsack Problem"
  | .assignment => "Assignment Problem"
  | .facility => "Facility Location"

/-- A built-in program in formulas. -/
def description : Demo → String
  | .knapsack =>
      "max z = 5x1 + 8x2 (value)\n" ++
      "s.t.  x1 + x2 <= 6     (item count)\n" ++
      "      5x1 + 9x2 <= 45  (weight capacity)\n" ++
      "      x1, x2 >= 0, integer"
  | .assignment =>
      "max z = 7x1 + 6x2 (productivity)\n" ++
      "s.t.  x1 + x2 <= 5     (workers)\n" ++
      "      3x1 + 2x2 <= 12  (hours)\n" ++
      "      2x1 + 4x2 <= 16  (tasks)\n" ++
      "      x1, x2 >= 0, integer"
  | .facility =>
      "max z = 10x1 + 12x2 (revenue)\n" ++
      "s.t.  2x1 + 3x2 <= 18  (land)\n" ++
      "      4x1 + 2x2 <= 20  (budget)\n" ++
      "      x1 + x2 <= 7     (max facilities)\n" ++
      "      x1, x2 >= 0, integer"

/-- The program itself. -/
def program : Demo → IntegerProgram Binary64
  | .knapsack => .ofParts [5.0, 8.0] [[1.0, 1.0], [5.0, 9.0]] [6.0, 45.0] true
  | .assignment => .ofParts [7.0, 6.0] [[1.0, 1.0], [3.0, 2.0], [2.0, 4.0]] [5.0, 12.0, 16.0] true
  | .facility => .ofParts [10.0, 12.0] [[2.0, 3.0], [4.0, 2.0], [1.0, 1.0]] [18.0, 20.0, 7.0] true

end Demo

end CommandLine

end BranchBound
