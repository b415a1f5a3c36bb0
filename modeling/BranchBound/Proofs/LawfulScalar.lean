import BranchBound.Proofs.Binary64
import BranchBound.Proofs.ExactScalar

/-!
# Laws of both kinds of scalars

Arithmetic on double-precision numbers obeys none of the laws of a field, and it may leave the
numbers.  Still some things are as they are for the rationals (`LawfulScalar`): zero and one are
numbers, a change of sign makes no number out of what is none, and what lies above a tolerance is
not zero.

Rounding is kept apart.  That the floor and the ceiling of a number are numbers, and that only a
number can be far from its rounding (`RoundsToNumbers`), is known of the rationals and is what is
asked of the rounding of any other scalars.
-/

namespace BranchBound

namespace Scalar

variable {K : Type} [Scalar K]

/-- Nothing that lies above the tolerance, itself or in magnitude, is zero. -/
def ExcludesZero (tol : K) : Prop :=
  ∀ v : K, tol < v ∨ tol < abs v → isZero v = false

variable (K) in
/-- Rounding a number gives a number, and only numbers have a distance from their rounding. -/
structure RoundsToNumbers : Prop where
  isFinite_floor {v : K} (h : isFinite v = true) : isFinite (floor v) = true
  isFinite_ceil {v : K} (h : isFinite v = true) : isFinite (ceil v) = true
  isFinite_of_lt_fractionality {tol v : K} (h : tol < fractionality v) : isFinite v = true

end Scalar

/-- Scalars whose zero, one and signs are as they should be. -/
class LawfulScalar (K : Type) [Scalar K] : Prop where
  /-- Zero is a number. -/
  isFinite_zero : Scalar.isFinite (0 : K) = true
  /-- One is a number. -/
  isFinite_one : Scalar.isFinite (1 : K) = true
  /-- The negation of a number is a number. -/
  isFinite_neg (v : K) : Scalar.isFinite (-v) = Scalar.isFinite v
  /-- A tolerance that is not negative keeps zero out. -/
  excludesZero {tol : K} (h : 0 ≤ tol) : Scalar.ExcludesZero tol

/-- Double-precision numbers are lawful. -/
instance : LawfulScalar Binary64 where
  isFinite_zero := by decide
  isFinite_one := by decide
  isFinite_neg v := by
    show Binary64.isFinite (-v) = Binary64.isFinite v
    rw [Binary64.isFinite, Binary64.isFinite, Binary64.magnitudeBits_neg]
  excludesZero {tol} htol v := by
    rintro (h | h)
    · exact Binary64.isZero_eq_false_of_lt htol h
    · -- the magnitude is zero only if the value is
      have habs : v.abs.isZero = false := Binary64.isZero_eq_false_of_lt htol h
      rwa [Binary64.isZero, Binary64.magnitudeBits_abs] at habs

variable {K : Type} [ExactScalar K]

/-- Exact scalars are lawful. -/
instance : LawfulScalar K where
  isFinite_zero := ExactScalar.isFinite_eq 0
  isFinite_one := ExactScalar.isFinite_eq 1
  isFinite_neg v := by rw [ExactScalar.isFinite_eq, ExactScalar.isFinite_eq]
  excludesZero {tol} htol v h := by
    refine Bool.eq_false_iff.2 fun hzero => ?_
    rw [ExactScalar.abs_eq, (ExactScalar.isZero_iff v).1 hzero, neg_zero, max_self, or_self] at h
    exact absurd h (not_lt.2 htol)

/-- Exact scalars are all numbers, rounded or not. -/
theorem ExactScalar.roundsToNumbers : Scalar.RoundsToNumbers K :=
  ⟨fun _ => isFinite_eq _, fun _ => isFinite_eq _, fun _ => isFinite_eq _⟩

end BranchBound
