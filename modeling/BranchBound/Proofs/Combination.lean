import BranchBound.Proofs.ExactScalar

/-!
# Linear combinations

Rows of a tableau and rows of a program both stand for linear combinations of unknowns.  Here the
unknowns are values numbered from zero, and `combination` pairs them with a list of coefficients;
unknowns past the end of the list do not count.  Products of two lists as the program forms them
are combinations of the second list's entries (`dot_eq_combination`).
-/

namespace BranchBound

variable {K : Type} [ExactScalar K]

/-- The sum of the values weighted by the coefficients. -/
def combination (cs : List K) (z : ℕ → K) : K :=
  ∑ j ∈ Finset.range cs.length, cs.getD j 0 * z j

@[simp] theorem combination_nil (z : ℕ → K) : combination [] z = 0 := by
  simp [combination]

theorem combination_cons (c : K) (cs : List K) (z : ℕ → K) :
    combination (c :: cs) z = c * z 0 + combination cs (fun j => z (j + 1)) := by
  rw [combination, List.length_cons, Finset.sum_range_succ', add_comm]
  rfl

/-- The coefficients of two lists in a row apply to the values one after the other. -/
theorem combination_append (cs ds : List K) (z : ℕ → K) :
    combination (cs ++ ds) z = combination cs z + combination ds (fun j => z (cs.length + j)) := by
  induction cs generalizing z with
  | nil => simp
  | cons c cs ih =>
      rw [List.cons_append, combination_cons, combination_cons, ih, add_assoc]
      congr 3
      funext j
      rw [List.length_cons]
      congr 1
      omega

/-- Only the values that have a coefficient matter. -/
theorem combination_congr {cs : List K} {z w : ℕ → K} (h : ∀ j < cs.length, z j = w j) :
    combination cs z = combination cs w := by
  apply Finset.sum_congr rfl
  intro j hj
  rw [h j (Finset.mem_range.1 hj)]

theorem combination_add (cs : List K) (z w : ℕ → K) :
    combination cs (fun j => z j + w j) = combination cs z + combination cs w := by
  simp only [combination, mul_add, Finset.sum_add_distrib]

theorem combination_mul (cs : List K) (a : K) (z : ℕ → K) :
    combination cs (fun j => a * z j) = a * combination cs z := by
  simp only [combination, Finset.mul_sum]
  exact Finset.sum_congr rfl fun j _ => by ring

theorem combination_sum {ι : Type} (s : Finset ι) (cs : List K) (z : ι → ℕ → K) :
    combination cs (fun j => ∑ i ∈ s, z i j) = ∑ i ∈ s, combination cs (z i) := by
  simp only [combination, Finset.mul_sum]
  exact Finset.sum_comm

/-- A single value picks out its coefficient. -/
theorem combination_single (cs : List K) (k : ℕ) (a : K) :
    combination cs (fun j => if j = k then a else 0) = cs.getD k 0 * a := by
  unfold combination
  by_cases hk : k < cs.length
  · rw [Finset.sum_eq_single_of_mem k (Finset.mem_range.2 hk)]
    · simp
    · intro j _ hj
      simp [hj]
  · rw [List.getD_eq_default _ _ (not_lt.1 hk), zero_mul]
    apply Finset.sum_eq_zero
    intro j hj
    have : j ≠ k := by
      rintro rfl
      exact hk (Finset.mem_range.1 hj)
    simp [this]

theorem combination_map_mul (a : K) (cs : List K) (z : ℕ → K) :
    combination (cs.map (fun v => a * v)) z = a * combination cs z := by
  induction cs generalizing z with
  | nil => simp
  | cons c cs ih => rw [List.map_cons, combination_cons, combination_cons, ih]; ring

@[simp] theorem combination_replicate_zero (n : ℕ) (z : ℕ → K) :
    combination (List.replicate n 0) z = 0 := by
  apply Finset.sum_eq_zero
  intro j hj
  rw [Finset.mem_range, List.length_replicate] at hj
  rw [List.getD_eq_getElem?_getD, List.getElem?_replicate_of_lt hj, Option.getD_some, zero_mul]

/-- A single coefficient picks out its value. -/
theorem combination_unit {n k : ℕ} (hk : k < n) (v : K) (z : ℕ → K) :
    combination ((List.replicate n 0).set k v) z = v * z k := by
  have hget : ∀ j, ((List.replicate n 0).set k v).getD j 0 = if j = k then v else 0 := by
    intro j
    rw [List.getD_eq_getElem?_getD, List.getElem?_set]
    by_cases hj : k = j
    · subst hj
      simp [hk]
    · rw [if_neg hj, if_neg (Ne.symm hj), List.getElem?_replicate]
      split <;> rfl
  rw [combination, Finset.sum_eq_single_of_mem k (by simpa using hk)]
  · rw [hget, if_pos rfl]
  · intro j _ hj
    rw [hget, if_neg hj, zero_mul]

/-- A nonnegative combination of nonnegative values. -/
theorem combination_nonneg {cs : List K} {z : ℕ → K}
    (h : ∀ j < cs.length, 0 ≤ cs.getD j 0 * z j) : 0 ≤ combination cs z :=
  Finset.sum_nonneg fun j hj => h j (Finset.mem_range.1 hj)

/-- The first `n` values, and zero for all others. -/
def firstValues (n : ℕ) (z : ℕ → K) : ℕ → K := fun j => if j < n then z j else 0

theorem firstValues_of_lt {n j : ℕ} (h : j < n) (z : ℕ → K) : firstValues n z j = z j := if_pos h

theorem firstValues_of_le {n j : ℕ} (h : n ≤ j) (z : ℕ → K) : firstValues n z j = 0 :=
  if_neg (not_lt.2 h)

/-- **The product of two lists is a combination of the second one's entries.** -/
theorem dot_eq_combination (a x : List K) :
    Scalar.dot a x = combination a (fun j => x.getD j 0) := by
  rw [Scalar.dot, ← List.sum_eq_foldl]
  induction a generalizing x with
  | nil => simp
  | cons c a ih =>
      cases x with
      | nil => simp [combination]
      | cons v x =>
          rw [List.zipWith_cons_cons, List.sum_cons, ih, combination_cons]
          rfl

end BranchBound
