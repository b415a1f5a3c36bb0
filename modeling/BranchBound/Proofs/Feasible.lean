import BranchBound.Proofs.Combination
import BranchBound.LinearProgram.Solution

/-!
# Feasible points and true verdicts

A point is feasible for a linear program if it has one entry per variable, none of them negative,
and satisfies every row.  `Truthful` says what each verdict of a linear solve promises about the
feasible points.

A program passes its check exactly if its parts fit together and all its entries are numbers
(`check_eq_ok_iff_isFinite`).  Exact scalars are all numbers, so there the sizes alone decide
(`check_eq_ok_iff`).
-/

namespace BranchBound

variable {K : Type} [ExactScalar K]

namespace LinearProgram

/-- Value of the objective at a point. -/
def valueAt (p : LinearProgram K) (x : List K) : K := Scalar.dot p.objective x

/-- The point satisfies all constraints. -/
structure Feasible (p : LinearProgram K) (x : List K) : Prop where
  /-- One entry per variable. -/
  length_eq : x.length = p.numVars
  /-- No entry is negative. -/
  nonneg : ∀ v ∈ x, 0 ≤ v
  /-- Every row is within its limit. -/
  le_limit : ∀ r ∈ p.rows.zip p.limits, Scalar.dot r.1 x ≤ r.2

/-- The verdict of a solution holds of the program. -/
def Truthful (settings : Settings K) (p : LinearProgram K) (s : Solution K) : Prop :=
  match s.status with
  | .optimal =>
      p.Feasible s.x ∧ s.value = p.valueAt s.x ∧
        ∀ y, p.Feasible y → p.sense.improves (p.valueAt y) s.value = false
  | .infeasible => ∀ y, ¬ p.Feasible y
  | .unbounded => ∀ v : K, ∃ y, p.Feasible y ∧ p.sense.improves (p.valueAt y) v = true
  | .pivotLimit => s.pivots = settings.maxPivots

/-! ## Programs whose parts fit together -/

/-- There are variables, every row has one coefficient per variable, and every row has a limit. -/
structure Shaped (p : LinearProgram K) : Prop where
  /-- There is a variable. -/
  vars_pos : 0 < p.numVars
  /-- There are as many rows as limits. -/
  rows_length : p.rows.length = p.numConstraints
  /-- Every row has one coefficient per variable. -/
  row_length : ∀ row ∈ p.rows, row.length = p.numVars

omit [ExactScalar K] in
theorem misfit?_eq_none_iff (n index : ℕ) (rows : List (List K)) :
    misfit? n index rows = none ↔ ∀ row ∈ rows, row.length = n := by
  induction rows generalizing index with
  | nil => simp [misfit?]
  | cons row rest ih =>
      unfold misfit?
      by_cases h : row.length = n
      · simp [h, ih]
      · simp [h]

omit [ExactScalar K] in
theorem mismatch?_eq_none_iff (p : LinearProgram K) :
    p.mismatch? = none ↔
      0 < p.numVars ∧ p.rows.length = p.numConstraints ∧
        ∀ row ∈ p.rows, row.length = p.numVars := by
  unfold mismatch?
  by_cases hn : p.numVars = 0
  · simp [hn]
  · rw [if_neg hn]
    by_cases hm : p.rows.length = p.numConstraints
    · simp [hm, Nat.pos_of_ne_zero hn, misfit?_eq_none_iff]
    · simp [hm]

/-- All coefficients and limits are numbers. -/
structure IsFinite [Scalar K] (p : LinearProgram K) : Prop where
  /-- The coefficients of the objective. -/
  objective : ∀ v ∈ p.objective, Scalar.isFinite v = true
  /-- The coefficients of the constraints. -/
  rows : ∀ row ∈ p.rows, ∀ v ∈ row, Scalar.isFinite v = true
  /-- The limits. -/
  limits : ∀ v ∈ p.limits, Scalar.isFinite v = true

omit [ExactScalar K] in
theorem nonFinite?_eq_none_iff [Scalar K] (p : LinearProgram K) :
    p.nonFinite? = none ↔ p.IsFinite := by
  have hall : p.IsFinite ↔ p.objective.all Scalar.isFinite = true ∧
      p.rows.all (fun row => row.all Scalar.isFinite) = true ∧
        p.limits.all Scalar.isFinite = true := by
    simp only [List.all_eq_true]
    exact ⟨fun h => ⟨h.objective, h.rows, h.limits⟩, fun h => ⟨h.1, h.2.1, h.2.2⟩⟩
  rw [hall, nonFinite?]
  cases p.objective.all Scalar.isFinite <;>
    cases p.rows.all (fun row => row.all Scalar.isFinite) <;>
      cases p.limits.all Scalar.isFinite <;> simp

omit [ExactScalar K] in
/-- **Exactly the programs whose parts fit together and are numbers pass the check.** -/
theorem check_eq_ok_iff_isFinite [Scalar K] (p : LinearProgram K) :
    p.check = .ok () ↔ p.Shaped ∧ p.IsFinite := by
  have hmismatch := p.mismatch?_eq_none_iff
  have hfinite := p.nonFinite?_eq_none_iff
  rw [check]
  cases h : p.mismatch? with
  | none =>
      obtain ⟨hpos, hrows, hrow⟩ := hmismatch.1 h
      rw [← hfinite, and_iff_right ⟨hpos, hrows, hrow⟩]
      cases p.nonFinite? <;> simp
  | some m =>
      simp only [reduceCtorEq, false_iff]
      rintro ⟨hs, -⟩
      rw [hmismatch.2 ⟨hs.vars_pos, hs.rows_length, hs.row_length⟩] at h
      cases h

/-- All entries of a program over exact scalars are numbers. -/
theorem isFinite_of_exactScalar (p : LinearProgram K) : p.IsFinite :=
  ⟨fun v _ => ExactScalar.isFinite_eq v, fun _ _ v _ => ExactScalar.isFinite_eq v,
    fun v _ => ExactScalar.isFinite_eq v⟩

theorem nonFinite?_eq_none (p : LinearProgram K) : p.nonFinite? = none :=
  p.nonFinite?_eq_none_iff.2 p.isFinite_of_exactScalar

/-- **Exactly the programs whose parts fit together pass the check.** -/
theorem check_eq_ok_iff (p : LinearProgram K) : p.check = .ok () ↔ p.Shaped :=
  p.check_eq_ok_iff_isFinite.trans (and_iff_left p.isFinite_of_exactScalar)

end LinearProgram

end BranchBound
