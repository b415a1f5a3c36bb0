import BranchBound.Binary64
import BranchBound.Scalar

/-!
# Double-precision scalars

The numbers the program runs on.  Their total order places the negative numbers by falling and the
others by rising magnitude, so that `-0.0` comes before `0.0` and undefined values lie at the two
ends according to their sign.
-/

namespace BranchBound

instance : Ranked Binary64 where
  rank v w := compare v.position w.position

/-- Only a number itself has the same rank. -/
theorem Binary64.rank_eq_iff (v w : Binary64) : Ranked.rank v w = .eq ↔ v = w := by
  refine ⟨fun h => position_injective (Int.compare_eq_eq.1 h), ?_⟩
  rintro rfl
  exact Int.compare_eq_eq.2 rfl

instance : Scalar Binary64 where
  decideLt := inferInstance
  decideLe := inferInstance
  isZero := Binary64.isZero
  isFinite := Binary64.isFinite
  belowTop v := decide (v < Binary64.infinity)
  abs := Binary64.abs
  floor := Binary64.floor
  ceil := Binary64.ceil
  round := Binary64.round
  larger := Binary64.larger
  smaller := Binary64.smaller
  truncate := Binary64.truncate
  top := Binary64.infinity
  bottom := -Binary64.infinity
  undefined := Binary64.nan

end BranchBound
