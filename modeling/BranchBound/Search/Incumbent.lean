import BranchBound.Sense

/-!
# The incumbent

The best whole-number point found so far.  It is replaced only by a strictly better one, so of
points of equal value the first stays.
-/

namespace BranchBound

namespace Search

/-- The best point so far, and how often it was replaced. -/
structure Incumbent (K : Type) where
  /-- Direction of optimization. -/
  sense : Sense
  /-- The point and its value. -/
  best : Option (List K × K)
  /-- Number of improvements, the first point included. -/
  updates : Nat

namespace Incumbent

variable {K : Type}

/-- No point yet. -/
def empty (sense : Sense) : Incumbent K := ⟨sense, none, 0⟩

/-- There is a point. -/
def hasSolution (i : Incumbent K) : Bool := i.best.isSome

/-- The point. -/
def point? (i : Incumbent K) : Option (List K) := i.best.map Prod.fst

/-- The value of the point. -/
def value? (i : Incumbent K) : Option K := i.best.map Prod.snd

variable [Scalar K]

/-- The value of the point, the worst value without one. -/
def value (i : Incumbent K) : K := i.value?.getD i.sense.worstValue

/-- A point of this value would replace the present one. -/
def canImprove (i : Incumbent K) (value : K) : Bool :=
  match i.best with
  | none => true
  | some (_, present) => i.sense.improves value present

/-- Take the point if it is better. -/
def update (i : Incumbent K) (x : List K) (value : K) : Incumbent K :=
  if i.canImprove value then { i with best := some (x, value), updates := i.updates + 1 } else i

@[simp] theorem canImprove_empty (sense : Sense) (value : K) :
    (empty sense : Incumbent K).canImprove value = true := rfl

/-- A point that was taken is the incumbent. -/
theorem best_update {i : Incumbent K} {value : K} (h : i.canImprove value = true) (x : List K) :
    (i.update x value).best = some (x, value) := by
  simp [update, h]

/-- A point that is not better changes nothing. -/
theorem update_of_not_canImprove {i : Incumbent K} {value : K} (h : i.canImprove value = false)
    (x : List K) : i.update x value = i := by
  simp [update, h]

end Incumbent

end Search

end BranchBound
