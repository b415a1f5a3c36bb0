import BranchBound.Scalar

/-!
# Direction of optimization

Minimizing and maximizing differ in which of two values improves on the other, and in the value
that everything improves on.
-/

namespace BranchBound

/-- Which way the objective is driven. -/
inductive Sense where
  | minimize
  | maximize
deriving DecidableEq, Inhabited, Repr

namespace Sense

/-- Maximization when the flag is set, else minimization. -/
def ofMaximize (maximize : Bool) : Sense :=
  if maximize then .maximize else .minimize

/-- The sense is maximization. -/
def isMaximize (s : Sense) : Bool :=
  s == .maximize

variable {K : Type} [Scalar K]

/-- `candidate` is strictly better than `reference`. -/
def improves (s : Sense) (candidate reference : K) : Bool :=
  match s with
  | .maximize => decide (reference < candidate)
  | .minimize => decide (candidate < reference)

/-- The value no feasible point is worse than. -/
def worstValue : Sense → K
  | .maximize => Scalar.bottom
  | .minimize => Scalar.top

/-- The value of an objective that improves without bound. -/
def limitValue : Sense → K
  | .maximize => Scalar.top
  | .minimize => Scalar.bottom

@[simp] theorem isMaximize_ofMaximize (maximize : Bool) :
    (ofMaximize maximize).isMaximize = maximize := by
  cases maximize <;> rfl

@[simp] theorem ofMaximize_isMaximize (s : Sense) : ofMaximize s.isMaximize = s := by
  cases s <;> rfl

end Sense

end BranchBound
