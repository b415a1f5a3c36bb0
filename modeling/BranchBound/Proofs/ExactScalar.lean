import Mathlib
import BranchBound.Scalar.Exact
import BranchBound.Sense

/-!
# Scalars that compute exactly

Nothing is assumed of a scalar where the algorithms are defined.  What they achieve is a statement
about numbers that obey the laws of an ordered field, with comparisons, rounding and rank to match:
`ExactScalar` collects these laws, and the rationals satisfy them.

Two facts carry the search.  A value at distance zero from its rounding is whole
(`isWhole_of_fractionality_le_zero`), and no whole number lies strictly between the floor and the
ceiling of a value (`IsWhole.le_floor_or_ceil_le`), so splitting there loses none.
-/

namespace BranchBound

/-- Scalars that form an ordered field and compare and round as such. -/
class ExactScalar (K : Type) extends Scalar K, Field K, LinearOrder K, IsStrictOrderedRing K where
  /-- Ranks are comparisons. -/
  rank_eq (a b : K) : Ranked.rank a b = compare a b
  /-- Only zero is zero. -/
  isZero_iff (a : K) : Scalar.isZero a = true ↔ a = 0
  /-- Every value is a number. -/
  isFinite_eq (a : K) : Scalar.isFinite a = true
  /-- Every value lies below the top. -/
  belowTop_eq (a : K) : Scalar.belowTop a = true
  /-- Magnitudes. -/
  abs_eq (a : K) : Scalar.abs a = max a (-a)
  /-- The floor is whole, and less than one below its value. -/
  floor_spec (a : K) : ∃ z : ℤ, Scalar.floor a = z ∧ (z : K) ≤ a ∧ a < z + 1
  /-- The ceiling is whole, and less than one above its value. -/
  ceil_spec (a : K) : ∃ z : ℤ, Scalar.ceil a = z ∧ a ≤ z ∧ (z : K) < a + 1
  /-- A half is rounded away from zero. -/
  round_eq (a : K) :
    Scalar.round a = if a < 0 then -Scalar.floor (-a + 1 / 2) else Scalar.floor (a + 1 / 2)
  /-- The larger of two values. -/
  larger_eq (a b : K) : Scalar.larger a b = max a b
  /-- The smaller of two values. -/
  smaller_eq (a b : K) : Scalar.smaller a b = min a b
  /-- A count that fits 64 bits is its own whole part. -/
  truncate_natCast {n : ℕ} (h : n < Word.bound 64) : Scalar.truncate (n : K) = n

/-- The rationals compute exactly. -/
instance : ExactScalar ℚ where
  __ := (inferInstance : Scalar ℚ)
  __ := (inferInstance : Field ℚ)
  __ := (inferInstance : LinearOrder ℚ)
  __ := (inferInstance : IsStrictOrderedRing ℚ)
  rank_eq a b := by
    show (if a < b then Ordering.lt else if b < a then Ordering.gt else Ordering.eq) = compare a b
    rcases lt_trichotomy a b with h | rfl | h
    · rw [if_pos h, compare_lt_iff_lt.2 h]
    · simp
    · rw [if_neg h.not_gt, if_pos h, compare_gt_iff_gt.2 h]
  isZero_iff a := by
    show (a == 0) = true ↔ a = 0
    simp
  isFinite_eq _ := rfl
  belowTop_eq _ := rfl
  abs_eq a := by
    show (if a < 0 then -a else a) = max a (-a)
    split
    · exact (max_eq_right (by linarith)).symm
    · exact (max_eq_left (by linarith)).symm
  floor_spec a := ⟨a.floor, rfl, Rat.floor_le a, by exact_mod_cast Rat.lt_floor_add_one a⟩
  ceil_spec a := by
    refine ⟨a.ceil, rfl, Rat.le_ceil, ?_⟩
    exact Rat.ceil_lt
  round_eq _ := rfl
  larger_eq a b := by
    show (if a < b then b else a) = max a b
    rw [max_def_lt]
  smaller_eq a b := by
    show (if b < a then b else a) = min a b
    rw [min_comm, min_def_lt]
  truncate_natCast {n} h := by
    show min ((n : ℚ).floor.toNat) (Word.bound 64 - 1) = n
    have hfloor : (n : ℚ).floor = n := by
      rw [show ((n : ℚ)) = ((n : ℤ) : ℚ) by norm_cast, Rat.floor_intCast]
    rw [hfloor, Int.toNat_natCast]
    omega

variable {K : Type} [ExactScalar K]

/-! ## Whole numbers -/

/-- The value is a whole number. -/
def IsWhole (v : K) : Prop := ∃ z : ℤ, v = z

/-- Every value within zero of its rounding is whole. -/
theorem isWhole_of_fractionality_le_zero {v : K} (h : Scalar.fractionality v ≤ 0) : IsWhole v := by
  have hv : v = Scalar.round v := by
    rw [Scalar.fractionality, ExactScalar.abs_eq] at h
    obtain ⟨h₁, h₂⟩ := max_le_iff.1 h
    linarith
  rw [ExactScalar.round_eq] at hv
  split at hv
  · obtain ⟨z, hz, -, -⟩ := ExactScalar.floor_spec (-v + 1 / 2)
    exact ⟨-z, by rw [hv, hz]; push_cast; ring⟩
  · obtain ⟨z, hz, -, -⟩ := ExactScalar.floor_spec (v + 1 / 2)
    exact ⟨z, by rw [hv, hz]⟩

/-- A whole number is at distance zero from its rounding. -/
theorem fractionality_intCast (z : ℤ) : Scalar.fractionality (z : K) = 0 := by
  have hround : Scalar.round (z : K) = z := by
    -- half a unit more than a whole number has that number as its floor
    have hhalf : ∀ w : ℤ, Scalar.floor ((w : K) + 1 / 2) = w := by
      intro w
      obtain ⟨f, hf, hle, hlt⟩ := ExactScalar.floor_spec ((w : K) + 1 / 2)
      have hle : (f : K) < ((w + 1 : ℤ) : K) := by push_cast; linarith
      have hlt : ((w : ℤ) : K) < ((f + 1 : ℤ) : K) := by push_cast; linarith
      have hle : f < w + 1 := by exact_mod_cast hle
      have hlt : w < f + 1 := by exact_mod_cast hlt
      obtain rfl : f = w := by omega
      exact hf
    rw [ExactScalar.round_eq]
    split
    · rw [show -(z : K) = ((-z : ℤ) : K) by push_cast; rfl, hhalf]
      push_cast
      ring
    · exact hhalf z
  rw [Scalar.fractionality, hround, sub_self, ExactScalar.abs_eq, neg_zero, max_self]

/-- What is farther from its rounding than a tolerance is not whole. -/
theorem not_isWhole_of_lt_fractionality {tol v : K} (htol : 0 ≤ tol)
    (h : tol < Scalar.fractionality v) : ¬ IsWhole v := by
  rintro ⟨z, rfl⟩
  rw [fractionality_intCast] at h
  exact not_lt.2 htol h

/-- A value that is not whole lies strictly between its floor and its ceiling. -/
theorem floor_lt_and_lt_ceil {v : K} (h : ¬ IsWhole v) :
    Scalar.floor v < v ∧ v < Scalar.ceil v := by
  obtain ⟨f, hf, hle, -⟩ := ExactScalar.floor_spec v
  obtain ⟨c, hc, hle', -⟩ := ExactScalar.ceil_spec v
  rw [hf, hc]
  exact ⟨lt_of_le_of_ne hle fun heq => h ⟨f, heq.symm⟩, lt_of_le_of_ne hle' fun heq => h ⟨c, heq⟩⟩

/-- **Splitting at a value loses no whole number.** -/
theorem IsWhole.le_floor_or_ceil_le {y : K} (hy : IsWhole y) (v : K) :
    y ≤ Scalar.floor v ∨ Scalar.ceil v ≤ y := by
  obtain ⟨k, rfl⟩ := hy
  obtain ⟨f, hf, -, hf₁⟩ := ExactScalar.floor_spec v
  obtain ⟨c, hc, -, hc₁⟩ := ExactScalar.ceil_spec v
  rw [hf, hc]
  rcases le_or_gt (k : K) v with h | h
  · left
    have : (k : K) < f + 1 := by linarith
    have : k < f + 1 := by exact_mod_cast this
    exact_mod_cast Int.lt_add_one_iff.1 this
  · right
    have : (c : K) < k + 1 := by linarith
    have : c < k + 1 := by exact_mod_cast this
    exact_mod_cast Int.lt_add_one_iff.1 this

/-! ## Directions of optimization -/

namespace Sense

/-- The value with the sign that makes a better one smaller. -/
def cost (s : Sense) (v : K) : K :=
  match s with
  | .maximize => -v
  | .minimize => v

/-- Better means cheaper. -/
theorem improves_iff (s : Sense) (a b : K) : s.improves a b = true ↔ s.cost a < s.cost b := by
  cases s <;> simp [improves, cost]

/-- Not better means at least as expensive. -/
theorem improves_eq_false_iff (s : Sense) (a b : K) :
    s.improves a b = false ↔ s.cost b ≤ s.cost a := by
  rw [← Bool.not_eq_true, improves_iff, not_lt]

end Sense

end BranchBound
