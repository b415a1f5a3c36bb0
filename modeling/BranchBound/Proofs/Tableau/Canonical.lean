import BranchBound.Proofs.Tableau.Lines

/-!
# Canonical tableaus

A tableau is canonical if every row is solved for its basic column: that column is a unit vector
over the rows and does not occur in the objective.  Pivots and new objectives keep a tableau
canonical, and they change neither which values solve the rows nor, for values that do, what the
objective row says (`Equivalent`).
-/

namespace BranchBound

variable {K : Type} [ExactScalar K]

namespace Tableau

/-- Every row is solved for its basic column. -/
structure Canonical (t : Tableau K) : Prop where
  /-- All rows have one coefficient per variable column. -/
  width : ∀ r ∈ t.rows, r.line.coefs.length = t.numCols
  /-- Basic columns are variable columns. -/
  basic_lt : ∀ r ∈ t.rows, r.basic < t.numCols
  /-- A basic column has entry one in its own row and zero in the others. -/
  unit : ∀ {i j : ℕ} {r s : TableauRow K}, t.rows[i]? = some r → t.rows[j]? = some s →
    s.line.coef r.basic = if j = i then 1 else 0
  /-- A basic column has no cost. -/
  priced : ∀ r ∈ t.rows, t.objective.coef r.basic = 0

/-- The values satisfy all rows. -/
def Solves (t : Tableau K) (z : ℕ → K) : Prop := ∀ r ∈ t.rows, r.line.Holds z

/-- What the objective row says the values cost. -/
def costAt (t : Tableau K) (z : ℕ → K) : K := t.objective.eval z - t.constant

/-- No right-hand side is negative. -/
def RhsNonneg (t : Tableau K) : Prop := ∀ r ∈ t.rows, 0 ≤ r.line.rhs

/-- The same columns, the same solutions, and the same costs of solutions. -/
structure Equivalent (t t' : Tableau K) : Prop where
  numCols_eq : t'.numCols = t.numCols
  solves_iff : ∀ z, t'.Solves z ↔ t.Solves z
  costAt_eq : ∀ z, t.Solves z → t'.costAt z = t.costAt z

namespace Equivalent

protected theorem refl (t : Tableau K) : t.Equivalent t :=
  ⟨rfl, fun _ => Iff.rfl, fun _ _ => rfl⟩

protected theorem trans {t t' t'' : Tableau K} (h : t.Equivalent t') (h' : t'.Equivalent t'') :
    t.Equivalent t'' where
  numCols_eq := h'.numCols_eq.trans h.numCols_eq
  solves_iff z := (h'.solves_iff z).trans (h.solves_iff z)
  costAt_eq z hz := (h'.costAt_eq z ((h.solves_iff z).2 hz)).trans (h.costAt_eq z hz)

protected theorem symm {t t' : Tableau K} (h : t.Equivalent t') : t'.Equivalent t where
  numCols_eq := h.numCols_eq.symm
  solves_iff z := (h.solves_iff z).symm
  costAt_eq z hz := (h.costAt_eq z ((h.solves_iff z).1 hz)).symm

end Equivalent

namespace Canonical

variable {t : Tableau K}

/-- The entry of a basic column in its own row. -/
theorem unit_self (hc : t.Canonical) {r : TableauRow K} (hr : r ∈ t.rows) :
    r.line.coef r.basic = 1 := by
  obtain ⟨i, hi⟩ := List.mem_iff_getElem?.1 hr
  simpa using hc.unit hi hi

/-- Rows with the same basic column are one row. -/
theorem eq_of_basic_eq (hc : t.Canonical) {i j : ℕ} {r s : TableauRow K}
    (hi : t.rows[i]? = some r) (hj : t.rows[j]? = some s) (h : r.basic = s.basic) : i = j := by
  by_contra hne
  have h₁ := hc.unit hi hj
  have h₂ := hc.unit hj hj
  rw [if_neg (Ne.symm hne), h] at h₁
  rw [if_pos rfl, h₁] at h₂
  exact zero_ne_one h₂

/-- The basic columns are distinct. -/
theorem basis_nodup (hc : t.Canonical) : t.basis.Nodup := by
  refine List.nodup_iff_injective_getElem.2 ?_
  rintro ⟨i, hi⟩ ⟨j, hj⟩ h
  have hi' : i < t.rows.length := by simpa [basis] using hi
  have hj' : j < t.rows.length := by simpa [basis] using hj
  refine Fin.ext (hc.eq_of_basic_eq (List.getElem?_eq_getElem hi')
    (List.getElem?_eq_getElem hj') ?_)
  simpa [basis] using h

end Canonical

/-- Whether a tableau is canonical is seen from its rows, two at a time. -/
theorem canonical_iff {t : Tableau K} :
    t.Canonical ↔
      (∀ r ∈ t.rows, r.line.coefs.length = t.numCols ∧ r.basic < t.numCols ∧
        t.objective.coef r.basic = 0) ∧
      ∀ p ∈ t.rows.zipIdx, ∀ q ∈ t.rows.zipIdx,
        q.1.line.coef p.1.basic = if q.2 = p.2 then 1 else 0 := by
  constructor
  · intro hc
    refine ⟨fun r hr => ⟨hc.width r hr, hc.basic_lt r hr, hc.priced r hr⟩, ?_⟩
    intro p hp q hq
    exact hc.unit (List.mem_zipIdx_iff_getElem?.1 hp) (List.mem_zipIdx_iff_getElem?.1 hq)
  · rintro ⟨hrows, hunit⟩
    refine ⟨fun r hr => (hrows r hr).1, fun r hr => (hrows r hr).2.1, ?_,
      fun r hr => (hrows r hr).2.2⟩
    intro i j r s hi hj
    exact hunit (r, i) (List.mem_zipIdx_iff_getElem?.2 hi) (s, j)
      (List.mem_zipIdx_iff_getElem?.2 hj)

instance (t : Tableau K) : Decidable t.Canonical := decidable_of_iff _ canonical_iff.symm

/-! ## Pivots -/

/-- The tableau after pivoting on the entry of the row `p`, number `row`, in the column `col`. -/
def pivoted (t : Tableau K) (row col : ℕ) (p : TableauRow K) : Tableau K :=
  let pivotLine := p.line.divideBy (p.line.coef col)
  { rows := t.rows.mapIdx fun i r =>
      if i = row then ⟨col, pivotLine⟩
      else { r with line := r.line.minus (r.line.coef col) pivotLine }
    objective := t.objective.minus (t.objective.coef col) pivotLine }

section Basis

variable {t : Tableau K}

omit [ExactScalar K] in
theorem getElem?_basis (t : Tableau K) (i : ℕ) :
    t.basis[i]? = (t.rows[i]?).map TableauRow.basic := by
  rw [basis, List.getElem?_map]

omit [ExactScalar K] in
theorem mem_basis_iff {j : ℕ} : j ∈ t.basis ↔ ∃ r ∈ t.rows, r.basic = j := by
  rw [basis, List.mem_map]

omit [ExactScalar K] in
theorem not_mem_basis_iff {j : ℕ} : j ∉ t.basis ↔ ∀ r ∈ t.rows, r.basic ≠ j := by
  simp [mem_basis_iff]

end Basis

section Pivot

variable {t : Tableau K} {row col : ℕ} {p : TableauRow K}

/-- A line of full width is cleared by subtracting a multiple of the pivot line. -/
theorem clearColumn_eq {l pl : Line K} (hcol : col < l.coefs.length)
    (hlen : l.coefs.length = pl.coefs.length) :
    clearColumn col pl l = l.minus (l.coef col) pl := by
  rw [clearColumn, Line.entry?_of_lt hcol]
  exact Line.eliminate_eq_minus hlen _

/-- A pivot on an entry that is not zero succeeds. -/
theorem pivot_eq (hc : t.Canonical) (hp : t.rows[row]? = some p) (hcol : col < t.numCols)
    (hne : p.line.coef col ≠ 0) : t.pivot row col = .ok (t.pivoted row col p) := by
  have hpw := hc.width p (List.mem_of_getElem? hp)
  have hentry : p.line.entry? col = some (p.line.coef col) :=
    Line.entry?_of_lt (hpw ▸ hcol)
  have hzero : ¬ Scalar.isZero (p.line.coef col) = true := by
    rwa [ExactScalar.isZero_iff]
  have hlen : (p.line.divideBy (p.line.coef col)).coefs.length = t.numCols := by
    rw [Line.length_divideBy, hpw]
  rw [pivot, hp]
  simp only [hentry, if_neg hzero, pivoted]
  congr 2
  · apply List.ext_getElem (by simp)
    intro i hi _
    have hi' : i < t.rows.length := by simpa using hi
    have hw := hc.width _ (List.getElem_mem hi')
    simp only [List.getElem_mapIdx]
    rw [clearColumn_eq (hw ▸ hcol) (hw.trans hlen.symm)]
  · exact clearColumn_eq hcol hlen.symm

/-- The pivot row after the pivot. -/
theorem rows_pivoted_self (hp : t.rows[row]? = some p) :
    (t.pivoted row col p).rows[row]? = some ⟨col, p.line.divideBy (p.line.coef col)⟩ := by
  rw [pivoted, List.getElem?_mapIdx, hp]
  simp

/-- The other rows after the pivot. -/
theorem rows_pivoted_of_ne {i : ℕ} (hi : i ≠ row) :
    (t.pivoted row col p).rows[i]? = (t.rows[i]?).map fun r =>
      { r with line := r.line.minus (r.line.coef col) (p.line.divideBy (p.line.coef col)) } := by
  rw [pivoted, List.getElem?_mapIdx]
  simp [hi]

/-- A row after a pivot is the pivot row, or another row with the column cleared. -/
theorem rows_pivoted_cases (hp : t.rows[row]? = some p) {i : ℕ} {r' : TableauRow K}
    (h : (t.pivoted row col p).rows[i]? = some r') :
    (i = row ∧ r' = ⟨col, p.line.divideBy (p.line.coef col)⟩) ∨
    (i ≠ row ∧ ∃ r, t.rows[i]? = some r ∧ r' = { r with
      line := r.line.minus (r.line.coef col) (p.line.divideBy (p.line.coef col)) }) := by
  by_cases hi : i = row
  · subst hi
    rw [rows_pivoted_self hp] at h
    exact .inl ⟨rfl, (Option.some.inj h).symm⟩
  · rw [rows_pivoted_of_ne hi, Option.map_eq_some_iff] at h
    obtain ⟨r, hr, rfl⟩ := h
    exact .inr ⟨hi, r, hr, rfl⟩

/-- A pivot on a row of right-hand side zero moves no right-hand side. -/
theorem rhs_pivoted_cases (hp : t.rows[row]? = some p) (hzero : p.line.rhs = 0)
    {r' : TableauRow K} (hr' : r' ∈ (t.pivoted row col p).rows) :
    r'.line.rhs = 0 ∨ ∃ r ∈ t.rows, r'.basic = r.basic ∧ r'.line.rhs = r.line.rhs := by
  obtain ⟨i, hi⟩ := List.mem_iff_getElem?.1 hr'
  obtain ⟨-, rfl⟩ | ⟨-, r, hr, rfl⟩ := rows_pivoted_cases hp hi
  · left
    rw [Line.rhs_divideBy, hzero, zero_div]
  · right
    refine ⟨r, List.mem_of_getElem? hr, rfl, ?_⟩
    rw [Line.rhs_minus, Line.rhs_divideBy, hzero, zero_div, mul_zero, sub_zero]

/-- Only the pivot row loses its basic column. -/
theorem eq_of_not_mem_basis_pivoted (hp : t.rows[row]? = some p) {r : TableauRow K}
    (hr : r ∈ t.rows) (hout : r.basic ∉ (t.pivoted row col p).basis) : r = p := by
  obtain ⟨i, hi⟩ := List.mem_iff_getElem?.1 hr
  by_cases hirow : i = row
  · subst hirow
    exact Option.some.inj (hi.symm.trans hp)
  · have hstays : (t.pivoted row col p).basis[i]? = some r.basic := by
      rw [getElem?_basis, rows_pivoted_of_ne hirow, hi]
      rfl
    exact absurd (List.mem_of_getElem? hstays) hout

/-- The entering column is basic after the pivot. -/
theorem mem_basis_pivoted (hp : t.rows[row]? = some p) : col ∈ (t.pivoted row col p).basis :=
  mem_basis_iff.2 ⟨_, List.mem_of_getElem? (rows_pivoted_self hp), rfl⟩

variable (hc : t.Canonical) (hp : t.rows[row]? = some p)
include hc hp

variable (col) in
/-- The pivot line is as wide as the tableau. -/
theorem length_pivotLine :
    (p.line.divideBy (p.line.coef col)).coefs.length = t.numCols := by
  rw [Line.length_divideBy, hc.width p (List.mem_of_getElem? hp)]

variable (col) in
theorem numCols_pivoted : (t.pivoted row col p).numCols = t.numCols :=
  Line.length_minus (length_pivotLine col hc hp).symm _

/-- The coefficients of a cleared line. -/
theorem coef_cleared {l : Line K} (hl : l.coefs.length = t.numCols) (j : ℕ) :
    (l.minus (l.coef col) (p.line.divideBy (p.line.coef col))).coef j =
      l.coef j - l.coef col * (p.line.coef j / p.line.coef col) := by
  rw [Line.coef_minus (hl.trans (length_pivotLine col hc hp).symm), Line.coef_divideBy]

/-- **A pivot keeps a tableau canonical.** -/
theorem canonical_pivoted (hcol : col < t.numCols) (hne : p.line.coef col ≠ 0) :
    (t.pivoted row col p).Canonical where
  width r' hr' := by
    obtain ⟨i, hi⟩ := List.mem_iff_getElem?.1 hr'
    rw [numCols_pivoted col hc hp]
    obtain ⟨-, rfl⟩ | ⟨-, r, hr, rfl⟩ := rows_pivoted_cases hp hi
    · exact length_pivotLine col hc hp
    · have hw := hc.width r (List.mem_of_getElem? hr)
      rw [Line.length_minus (hw.trans (length_pivotLine col hc hp).symm), hw]
  basic_lt r' hr' := by
    obtain ⟨i, hi⟩ := List.mem_iff_getElem?.1 hr'
    rw [numCols_pivoted col hc hp]
    obtain ⟨-, rfl⟩ | ⟨-, r, hr, rfl⟩ := rows_pivoted_cases hp hi
    · exact hcol
    · exact hc.basic_lt r (List.mem_of_getElem? hr)
  unit {i j r' s'} hi hj := by
    obtain ⟨rfl, rfl⟩ | ⟨hirow, r, hr, rfl⟩ := rows_pivoted_cases hp hi
    · -- the new basic column: one in the pivot line, cleared elsewhere
      obtain ⟨rfl, rfl⟩ | ⟨hjrow, s, hs, rfl⟩ := rows_pivoted_cases hp hj
      · rw [if_pos rfl, Line.coef_divideBy, div_self hne]
      · rw [if_neg hjrow, coef_cleared hc hp (hc.width s (List.mem_of_getElem? hs)), div_self hne]
        ring
    · -- an old basic column: the pivot line has no entry there
      have hzero : p.line.coef r.basic = 0 := by
        rw [hc.unit hr hp, if_neg (Ne.symm hirow)]
      obtain ⟨rfl, rfl⟩ | ⟨hjrow, s, hs, rfl⟩ := rows_pivoted_cases hp hj
      · rw [if_neg (Ne.symm hirow), Line.coef_divideBy, hzero, zero_div]
      · rw [coef_cleared hc hp (hc.width s (List.mem_of_getElem? hs)), hzero, zero_div, mul_zero,
          sub_zero, hc.unit hr hs]
  priced r' hr' := by
    obtain ⟨i, hi⟩ := List.mem_iff_getElem?.1 hr'
    rw [pivoted, coef_cleared hc hp rfl]
    obtain ⟨-, rfl⟩ | ⟨hirow, r, hr, rfl⟩ := rows_pivoted_cases hp hi
    · rw [div_self hne]
      ring
    · rw [hc.priced r (List.mem_of_getElem? hr), hc.unit hr hp, if_neg (Ne.symm hirow)]
      ring

/-- **A pivot changes neither solutions nor their costs.** -/
theorem equivalent_pivoted (hne : p.line.coef col ≠ 0) :
    t.Equivalent (t.pivoted row col p) where
  numCols_eq := numCols_pivoted col hc hp
  solves_iff z := by
    have hlen := length_pivotLine col hc hp
    constructor
    · intro h r hr
      have hpl : (p.line.divideBy (p.line.coef col)).Holds z :=
        h _ (List.mem_of_getElem? (rows_pivoted_self hp))
      obtain ⟨i, hi⟩ := List.mem_iff_getElem?.1 hr
      by_cases hirow : i = row
      · subst hirow
        rw [hp] at hi
        obtain rfl := Option.some.inj hi
        exact (Line.holds_divideBy hne z).1 hpl
      · have hr' := h _ (List.mem_of_getElem? (by rw [rows_pivoted_of_ne hirow, hi]; rfl))
        have hw := hc.width r hr
        simp only [Line.Holds, Line.eval_minus (hw.trans hlen.symm), Line.rhs_minus] at hr' hpl ⊢
        rw [hpl] at hr'
        linarith
    · intro h r' hr'
      have hpl : (p.line.divideBy (p.line.coef col)).Holds z :=
        (Line.holds_divideBy hne z).2 (h p (List.mem_of_getElem? hp))
      obtain ⟨i, hi⟩ := List.mem_iff_getElem?.1 hr'
      obtain ⟨-, rfl⟩ | ⟨-, r, hr, rfl⟩ := rows_pivoted_cases hp hi
      · exact hpl
      · have hw := hc.width r (List.mem_of_getElem? hr)
        have hrz := h r (List.mem_of_getElem? hr)
        simp only [Line.Holds, Line.eval_minus (hw.trans hlen.symm), Line.rhs_minus] at hrz hpl ⊢
        rw [hrz, hpl]
  costAt_eq z hz := by
    have hlen := length_pivotLine col hc hp
    have hpl : (p.line.divideBy (p.line.coef col)).Holds z :=
      (Line.holds_divideBy hne z).2 (hz p (List.mem_of_getElem? hp))
    unfold Line.Holds at hpl
    simp only [costAt, constant, pivoted, Line.eval_minus hlen.symm, Line.rhs_minus]
    rw [hpl]
    ring

end Pivot

end Tableau

end BranchBound
