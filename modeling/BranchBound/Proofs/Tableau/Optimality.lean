import BranchBound.Proofs.Tableau.Points

/-!
# What reduced costs prove

Reduced costs that are not negative bound the cost of all values from below
(`neg_constant_le_costAt`).  Raising a column changes the cost by its reduced cost (`costAt_raise`),
so along a column of negative reduced cost that no row limits the cost falls without end
(`Canonical.exists_costAt_lt`).
-/

namespace BranchBound

variable {K : Type} [ExactScalar K]

namespace Tableau

variable {t : Tableau K}

/-- **Without negative reduced costs no values are cheaper than the basic point.** -/
theorem neg_constant_le_costAt {candidates : ℕ} (h : ∀ j < candidates, 0 ≤ t.objective.coef j)
    {z : ℕ → K} (hz : ∀ j, 0 ≤ z j) (hout : ∀ j, candidates ≤ j → z j = 0) :
    -t.constant ≤ t.costAt z := by
  have heval : 0 ≤ t.objective.eval z := by
    apply combination_nonneg
    intro j _
    rcases lt_or_ge j candidates with hj | hj
    · exact mul_nonneg (h j hj) (hz j)
    · rw [hout j hj, mul_zero]
  unfold costAt
  linarith

/-- The solution at which the column has the value `θ` and all others outside the basis are zero. -/
def raise (t : Tableau K) (col : ℕ) (θ : K) : ℕ → K := t.complete fun j => if j = col then θ else 0

theorem raise_of_not_basic {j : ℕ} (h : ∀ r ∈ t.rows, r.basic ≠ j) (col : ℕ) (θ : K) :
    t.raise col θ j = if j = col then θ else 0 :=
  complete_of_not_basic h _

namespace Canonical

variable (hc : t.Canonical)
include hc

/-- A column with a reduced cost is not basic. -/
theorem ne_basic_of_coef_ne_zero {col : ℕ} (hcost : t.objective.coef col ≠ 0) {r : TableauRow K}
    (hr : r ∈ t.rows) : r.basic ≠ col := by
  rintro rfl
  exact hcost (hc.priced r hr)

/-- What raising a column takes from a basic one. -/
theorem raise_basic {col : ℕ} {r : TableauRow K} (hr : r ∈ t.rows) (hne : r.basic ≠ col) (θ : K) :
    t.raise col θ r.basic = r.line.rhs - r.line.coef col * θ := by
  rw [raise, hc.complete_basic hr, if_neg hne, zero_add, TableauRow.residual, Line.eval,
    combination_single, Line.coef]

theorem solves_raise (col : ℕ) (θ : K) : t.Solves (t.raise col θ) := hc.solves_complete _

/-- **Raising a column costs its reduced cost.** -/
theorem costAt_raise (col : ℕ) (θ : K) :
    t.costAt (t.raise col θ) = t.objective.coef col * θ - t.constant := by
  rw [raise, hc.costAt_complete, Line.eval, combination_single, Line.coef]

/-- **Along a column without reduced cost zero that no row limits, no coordinate falls below
zero.** -/
theorem raise_nonneg (hrhs : t.RhsNonneg) {col : ℕ} (hcost : t.objective.coef col ≠ 0)
    (hrows : ∀ r ∈ t.rows, r.line.coef col ≤ 0) {θ : K} (hθ : 0 ≤ θ) (j : ℕ) :
    0 ≤ t.raise col θ j := by
  by_cases h : ∃ r ∈ t.rows, r.basic = j
  · obtain ⟨r, hr, rfl⟩ := h
    rw [hc.raise_basic hr (hc.ne_basic_of_coef_ne_zero hcost hr)]
    have := mul_nonpos_of_nonpos_of_nonneg (hrows r hr) hθ
    have := hrhs r hr
    linarith
  · rw [raise_of_not_basic fun r hr hj => h ⟨r, hr, hj⟩]
    split
    · exact hθ
    · exact le_rfl

/-- **Along an improving column that nothing limits the cost falls below every value.** -/
theorem exists_costAt_lt (hrhs : t.RhsNonneg) {col : ℕ} (hcost : t.objective.coef col < 0)
    (hrows : ∀ r ∈ t.rows, r.line.coef col ≤ 0) (v : K) :
    ∃ z, t.Solves z ∧ (∀ j, 0 ≤ z j) ∧ t.costAt z < v := by
  let gain := t.objective.coef col
  let θ : K := max 0 ((v + t.constant - 1) / gain)
  have hθ : 0 ≤ θ := le_max_left _ _
  have hfall : gain * θ ≤ v + t.constant - 1 := by
    rw [mul_comm, ← div_le_iff_of_neg hcost]
    exact le_max_right _ _
  refine ⟨t.raise col θ, hc.solves_raise col θ, hc.raise_nonneg hrhs hcost.ne hrows hθ, ?_⟩
  rw [hc.costAt_raise]
  linarith

end Canonical

end Tableau

end BranchBound
