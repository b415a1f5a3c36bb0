import BranchBound.Proofs.Simplex.StandardForm
import BranchBound.Proofs.Tableau.Reshaping

/-!
# Exchanging the artificial columns

After the artificial objective has been minimized, artificial columns may still be basic.  Going
through the rows, each of them is exchanged for a structural column in which its row has an entry
larger than the tolerance.  There always is one if the tolerance is below one: the artificial column
of a negated constraint and the constraint's slack are opposite in every tableau for the standard
form (`coef_slack_add_coef_artificial`), so the row has the entry minus one there.  Hence no row is
given up, and the rows become a basis over variables and slacks (`driveOut_spec`,
`dropArtificials_cases`).

An exchange in a row of right-hand side zero moves no right-hand side (`Inherits`).
-/

namespace BranchBound

variable {K : Type} [ExactScalar K]

namespace Simplex

open Tableau

variable {settings : LinearProgram.Settings K} {p : LinearProgram K} {t t' : Tableau K}

/-- A canonical tableau for the standard form. -/
def DescribesStandard (settings : LinearProgram.Settings K) (p : LinearProgram K) :
    Tableau K → Prop :=
  Describes (standardForm settings p).tableau.numCols (standardForm settings p).tableau.Solves

/-- A canonical tableau over variables and slacks for the slack equations. -/
def SlackBasis (p : LinearProgram K) : Tableau K → Prop :=
  Describes (p.numVars + p.numConstraints) (SlackForm p)

theorem DescribesStandard.structural_le_numCols (h : DescribesStandard settings p t) :
    p.numVars + p.numConstraints ≤ t.numCols := by
  rw [h.numCols_eq, numCols_standardForm]
  exact Nat.le_add_right _ _

/-! ## Opposite columns -/

/-- In the standard form the artificial column of a negated constraint and its slack cancel. -/
theorem coef_slack_add_coef_artificial_rowOf (hp : p.Shaped) {i j : ℕ} {c d : List K × K}
    (hc : (p.rows.zip p.limits)[i]? = some c) (hneg : isNegated settings c.2 = true)
    (hd : (p.rows.zip p.limits)[j]? = some d) :
    (rowOf settings p j d).line.coef (p.numVars + i) +
      (rowOf settings p j d).line.coef (rowOf settings p i c).basic = 0 := by
  obtain ⟨-, hi, -⟩ := constraint_bounds settings hp hc
  obtain ⟨hn, -, -⟩ := constraint_bounds settings hp hd
  have hart : ¬(isNegated settings d.2 = true ∧ p.numVars + p.numConstraints +
      countNegated settings ((p.rows.zip p.limits).take j) = p.numVars + i) := by
    rintro ⟨-, h⟩
    omega
  rw [unit_rowOf hp hc hd, coef_rowOf hp hd, List.getD_eq_default _ _ (by omega), zero_add,
    if_neg hart, add_zero]
  by_cases hji : j = i
  · subst hji
    obtain rfl := Option.some.inj (hc.symm.trans hd)
    rw [if_pos rfl, if_pos rfl, rowSign, if_pos hneg]
    ring
  · rw [if_neg hji, if_neg (by omega)]
    ring

/-- **The artificial column of a negated constraint and its slack cancel in every tableau for the
standard form.** -/
theorem coef_slack_add_coef_artificial (hp : p.Shaped) (h : DescribesStandard settings p t) {i : ℕ}
    {c : List K × K} (hc : (p.rows.zip p.limits)[i]? = some c)
    (hneg : isNegated settings c.2 = true) {r : TableauRow K} (hr : r ∈ t.rows) :
    r.line.coef (p.numVars + i) + r.line.coef (rowOf settings p i c).basic = 0 := by
  -- adding one to both variables leads from solutions to solutions
  have heval : ∀ l : Line K, l.eval (fun j => t.basicPoint j +
      ((if j = p.numVars + i then 1 else 0) + if j = (rowOf settings p i c).basic then 1 else 0)) =
      l.eval t.basicPoint +
        (l.coef (p.numVars + i) + l.coef (rowOf settings p i c).basic) := by
    intro l
    rw [Line.eval, combination_add, combination_add, combination_single, combination_single,
      mul_one, mul_one]
    rfl
  have hz := h.canonical.solves_basicPoint
  have hshift : (standardForm settings p).tableau.Solves fun j => t.basicPoint j +
      ((if j = p.numVars + i then 1 else 0) +
        if j = (rowOf settings p i c).basic then 1 else 0) := by
    intro s hs
    obtain ⟨j, hj⟩ := List.mem_iff_getElem?.1 hs
    have hholds := (h.solves_iff _).1 hz s hs
    rw [rows_standardForm, Option.map_eq_some_iff] at hj
    obtain ⟨d, hd, rfl⟩ := hj
    rw [Line.Holds, heval, coef_slack_add_coef_artificial_rowOf hp hc hneg hd, add_zero]
    exact hholds
  have hrow := (h.solves_iff _).2 hshift r hr
  rw [Line.Holds, heval, hz r hr] at hrow
  simpa using hrow

/-! ## The column to exchange -/

/-- Looking for a column to exchange finds one exactly if the row has a structural entry larger than
the tolerance. -/
theorem exchangeColumn?_cases {t : Tableau K} (hc : t.Canonical) {row n : ℕ} {r : TableauRow K}
    (hr : t.rows[row]? = some r) (hn : n ≤ t.numCols) (tol : K) :
    (exchangeColumn? t row n tol = .ok none ∧ ∀ j < n, |r.line.coef j| ≤ tol) ∨
    ∃ col, exchangeColumn? t row n tol = .ok (some col) ∧ col < n ∧ tol < |r.line.coef col| := by
  have hw : n ≤ r.line.coefs.length := hc.width r (List.mem_of_getElem? hr) ▸ hn
  have hlen : ¬ (r.line.entries.take n).length < n := by
    rw [Line.length_take_entries hw]
    exact lt_irrefl n
  have habs : ∀ v : K, Scalar.abs v = |v| := fun v => by
    rw [ExactScalar.abs_eq, abs_eq_max_neg]
  obtain ⟨hfind, hnone⟩ | ⟨col, hfind, hlt, hcol, -⟩ :=
    Line.findIdx?_take_entries hw fun v => decide (tol < Scalar.abs v)
  · refine .inl ⟨?_, ?_⟩
    · simp only [exchangeColumn?, hr, inRange, bind, Except.bind, hfind, if_neg hlen]
      rfl
    · intro j hj
      have := of_decide_eq_false (hnone j hj)
      rwa [habs, not_lt] at this
  · refine .inr ⟨col, ?_, hlt, habs _ ▸ of_decide_eq_true hcol⟩
    simp only [exchangeColumn?, hr, inRange, bind, Except.bind, hfind]
    rfl

/-- **A row solved for an artificial column has a structural entry to exchange it for.** -/
theorem exists_exchangeColumn (hp : p.Shaped) (h : DescribesStandard settings p t)
    (htol : 0 ≤ settings.pivotTol) (hlt : settings.pivotTol < 1) {row : ℕ} {r : TableauRow K}
    (hr : t.rows[row]? = some r) (hbasic : p.numVars + p.numConstraints ≤ r.basic) :
    ∃ col, exchangeColumn? t row (p.numVars + p.numConstraints) settings.pivotTol =
        .ok (some col) ∧ col < p.numVars + p.numConstraints ∧ r.line.coef col ≠ 0 := by
  obtain ⟨-, hnone⟩ | ⟨col, hok, hcol, hentry⟩ :=
    exchangeColumn?_cases h.canonical hr h.structural_le_numCols settings.pivotTol
  · have hmem := List.mem_of_getElem? hr
    have hrange := h.canonical.basic_lt r hmem
    rw [h.numCols_eq, numCols_standardForm, numArtificial_eq hp] at hrange
    have hk : r.basic - (p.numVars + p.numConstraints) <
        countNegated settings (p.rows.zip p.limits) := by omega
    obtain ⟨i, c, hc, hneg, hcount⟩ := exists_of_lt_countNegated hk
    have heq : (rowOf settings p i c).basic = r.basic := by
      rw [basic_rowOf_of_negated hneg, hcount, Nat.add_sub_cancel' hbasic]
    have hopposite := coef_slack_add_coef_artificial hp h hc hneg hmem
    rw [heq, h.canonical.unit_self hmem] at hopposite
    obtain ⟨-, hi, -⟩ := constraint_bounds settings hp hc
    have hsmall := hnone (p.numVars + i) (by omega)
    rw [eq_neg_of_add_eq_zero_left hopposite, abs_neg, abs_one] at hsmall
    exact absurd hsmall (not_le.2 hlt)
  · exact ⟨col, hok, hcol, abs_pos.1 (htol.trans_lt hentry)⟩

/-! ## Going through the rows -/

/-- The rows `kept` have a structural basic column, and with those still to be treated they are
all. -/
structure Driven (settings : LinearProgram.Settings K) (p : LinearProgram K) (todo kept : List ℕ)
    (t : Tableau K) : Prop where
  describes : DescribesStandard settings p t
  rows_eq : kept ++ todo = List.range t.rows.length
  kept_basic : ∀ i ∈ kept, ∀ r, t.rows[i]? = some r → r.basic < p.numVars + p.numConstraints

/-- Unless an artificial column has a value other than zero, every right-hand side of `t'` is zero
or one of `t`. -/
def Inherits (numStructural : ℕ) (t t' : Tableau K) : Prop :=
  (∀ r ∈ t.rows, numStructural ≤ r.basic → r.line.rhs = 0) →
    ∀ r' ∈ t'.rows, r'.line.rhs = 0 ∨ ∃ r ∈ t.rows, r'.line.rhs = r.line.rhs

theorem Inherits.refl (numStructural : ℕ) (t : Tableau K) : Inherits numStructural t t :=
  fun _ r' hr' => .inr ⟨r', hr', rfl⟩

/-- **Exchanging an artificial column of value zero moves no right-hand side.** -/
theorem Inherits.exchange {numStructural row col : ℕ} {r : TableauRow K}
    (hr : t.rows[row]? = some r) (hbasic : numStructural ≤ r.basic)
    (h : Inherits numStructural (t.pivoted row col r) t') : Inherits numStructural t t' := by
  intro hzero r' hr'
  have hrhs := hzero r (List.mem_of_getElem? hr) hbasic
  have hmoved : ∀ s' ∈ (t.pivoted row col r).rows, s'.line.rhs = 0 ∨
      ∃ s ∈ t.rows, s'.basic = s.basic ∧ s'.line.rhs = s.line.rhs :=
    fun s' hs' => rhs_pivoted_cases hr hrhs hs'
  have hstays : ∀ s' ∈ (t.pivoted row col r).rows, numStructural ≤ s'.basic →
      s'.line.rhs = 0 := by
    intro s' hs' hge
    obtain heq | ⟨s, hs, hsame, heq⟩ := hmoved s' hs'
    · exact heq
    · exact heq.trans (hzero s hs (hsame ▸ hge))
  obtain heq | ⟨s', hs', heq⟩ := h hstays r' hr'
  · exact .inl heq
  · obtain heq' | ⟨s, hs, -, heq'⟩ := hmoved s' hs'
    · exact .inl (heq.trans heq')
    · exact .inr ⟨s, hs, heq.trans heq'⟩

namespace Driven

variable {row : ℕ} {rest kept : List ℕ} {r : TableauRow K}

/-- At the beginning no row has been treated. -/
theorem start (h : DescribesStandard settings p t) :
    Driven settings p (List.range t.numRows) [] t where
  describes := h
  rows_eq := rfl
  kept_basic _ hi := absurd hi List.not_mem_nil

variable (h : Driven settings p (row :: rest) kept t)
include h

theorem row_lt : row < t.rows.length := by
  have : row ∈ List.range t.rows.length := by simp [← h.rows_eq]
  exact List.mem_range.1 this

variable (hr : t.rows[row]? = some r)
include hr

/-- A row with a structural basic column is kept. -/
theorem keep (hbasic : r.basic < p.numVars + p.numConstraints) :
    Driven settings p rest (kept ++ [row]) t where
  describes := h.describes
  rows_eq := by rw [List.append_assoc]; exact h.rows_eq
  kept_basic i hi s hs := by
    rcases List.mem_append.1 hi with hi | hi
    · exact h.kept_basic i hi s hs
    · obtain rfl := List.mem_singleton.1 hi
      obtain rfl := Option.some.inj (hr.symm.trans hs)
      exact hbasic

/-- A row whose artificial column is exchanged is kept. -/
theorem exchange {col : ℕ} (hcol : col < p.numVars + p.numConstraints)
    (hne : r.line.coef col ≠ 0) :
    Driven settings p rest (kept ++ [row]) (t.pivoted row col r) where
  describes := h.describes.of_equivalent
    (canonical_pivoted h.describes.canonical hr
      (hcol.trans_le h.describes.structural_le_numCols) hne)
    (equivalent_pivoted h.describes.canonical hr hne)
  rows_eq := by
    rw [List.append_assoc, pivoted, List.length_mapIdx]
    exact h.rows_eq
  kept_basic i hi s' hs' := by
    obtain ⟨-, rfl⟩ | ⟨hne, s, hs, rfl⟩ := rows_pivoted_cases hr hs'
    · exact hcol
    · rcases List.mem_append.1 hi with hi | hi
      · exact h.kept_basic i hi s hs
      · exact absurd (List.mem_singleton.1 hi) hne

end Driven

/-- **All artificial columns are exchanged, and no row is given up.** -/
theorem driveOut_spec (hp : p.Shaped) (htol : 0 ≤ settings.pivotTol) (hlt : settings.pivotTol < 1)
    {todo kept : List ℕ} (h : Driven settings p todo kept t) :
    ∃ events t' kept',
      driveOut settings.pivotTol (p.numVars + p.numConstraints) todo kept t =
        ⟨events, .ok (t', kept')⟩ ∧
      (∀ e ∈ events, ∃ row col, e = .exchange row col) ∧ Driven settings p [] kept' t' ∧
      t'.numRows = t.numRows ∧ Inherits (p.numVars + p.numConstraints) t t' := by
  induction todo generalizing kept t with
  | nil => exact ⟨[], t, kept, rfl, by simp, h, rfl, .refl _ t⟩
  | cons row rest ih =>
      obtain ⟨r, hr⟩ : ∃ r, t.rows[row]? = some r := ⟨_, List.getElem?_eq_getElem h.row_lt⟩
      rw [driveOut, getElem?_basis, hr, Option.map_some]
      simp only [inRange, Recorded.ofExcept_ok, Recorded.bind_ok, List.nil_append]
      by_cases hbasic : r.basic < p.numVars + p.numConstraints
      · rw [if_pos hbasic]
        exact ih (h.keep hr hbasic)
      · rw [if_neg hbasic]
        obtain ⟨col, hex, hcol, hne⟩ :=
          exists_exchangeColumn hp h.describes htol hlt hr (not_lt.1 hbasic)
        have hpivot := pivot_eq h.describes.canonical hr
          (hcol.trans_le h.describes.structural_le_numCols) hne
        obtain ⟨events, t', kept', hok, hevents, hdriven, hrows, hrhs⟩ :=
          ih (h.exchange hr hcol hne)
        refine ⟨.exchange row col :: events, t', kept', ?_, ?_, hdriven,
          hrows.trans (numRows_of_pivot_eq_ok hpivot), hrhs.exchange hr (not_lt.1 hbasic)⟩
        · rw [hex]
          simp only [Recorded.ofExcept_ok, Recorded.bind_ok, Recorded.report_eq, hpivot, hok]
          rfl
        · exact List.forall_mem_cons.2 ⟨⟨row, col, rfl⟩, hevents⟩

/-! ## Removing the artificial columns -/

/-- Only the variables and slacks occur in the slack equations. -/
theorem slackForm_congr (hp : p.Shaped) {z w : ℕ → K}
    (h : ∀ j < p.numVars + p.numConstraints, z j = w j) : SlackForm p z ↔ SlackForm p w := by
  have hrow : ∀ {i : ℕ} {c : List K × K}, (p.rows.zip p.limits)[i]? = some c →
      combination c.1 z + z (p.numVars + i) = combination c.1 w + w (p.numVars + i) := by
    intro i c hc
    obtain ⟨hn, hi, -⟩ := constraint_bounds .standard hp hc
    rw [h _ (by omega), combination_congr fun j hj => h j (by omega)]
  constructor
  · intro hz i c hc
    rw [← hrow hc]
    exact hz i c hc
  · intro hw i c hc
    rw [hrow hc]
    exact hw i c hc

/-- **When all rows are treated, the structural columns are a basis over variables and slacks.** -/
theorem Driven.slackBasis (hp : p.Shaped) {kept : List ℕ} (h : Driven settings p [] kept t)
    (hrest : t.Restricted kept (p.numVars + p.numConstraints) t') : SlackBasis p t' where
  canonical := by
    have hkept : kept = List.range t.rows.length := by simpa using h.rows_eq
    exact hrest.canonical h.describes.canonical h.describes.structural_le_numCols
      (hkept ▸ List.nodup_range) h.kept_basic
  numCols_eq := hrest.numCols_eq h.describes.structural_le_numCols
  solves_iff z := by
    have hkept : kept = List.range t.rows.length := by simpa using h.rows_eq
    have hsolves : t'.Solves z ↔ t.Solves (firstValues (p.numVars + p.numConstraints) z) := by
      rw [hrest.solves_iff h.describes.canonical h.describes.structural_le_numCols, hkept]
      constructor
      · intro hz r hr
        obtain ⟨i, hi⟩ := List.mem_iff_getElem?.1 hr
        exact hz i (List.mem_range.2 (List.getElem?_eq_some_iff.1 hi).1) r hi
      · intro hz i _ r hr
        exact hz r (List.mem_of_getElem? hr)
    rw [hsolves, h.describes.solves_iff,
      solves_standardForm_iff hp fun j hj => firstValues_of_le hj z]
    exact slackForm_congr hp fun j hj => firstValues_of_lt hj z

/-- **Unless the artificial optimum lies above the tolerance, removing the artificial columns leaves
a basis over variables and slacks.** -/
theorem dropArtificials_cases (hp : p.Shaped) (htol : 0 ≤ settings.pivotTol)
    (hlt : settings.pivotTol < 1) (h : DescribesStandard settings p t) :
    (settings.feasTol < -t.constant ∧
      (dropArtificials settings (p.numVars + p.numConstraints) t).outcome = .ok .infeasible) ∨
    (-t.constant ≤ settings.feasTol ∧ ∃ t',
      (dropArtificials settings (p.numVars + p.numConstraints) t).outcome = .ok (.feasible t') ∧
        SlackBasis p t' ∧ Inherits (p.numVars + p.numConstraints) t t') := by
  rw [dropArtificials]
  by_cases hpos : settings.feasTol < -t.constant
  · refine .inl ⟨hpos, ?_⟩
    rw [if_pos hpos]
    rfl
  · obtain ⟨events, t₁, kept, hok, -, hdriven, -, hrhs⟩ := driveOut_spec hp htol hlt (.start h)
    have hkept : ∀ i ∈ kept, i < t₁.rows.length := by
      intro i hi
      rw [← List.mem_range, ← hdriven.rows_eq]
      exact List.mem_append_left _ hi
    obtain ⟨t₂, hok', hrest⟩ := restrict_spec hkept hdriven.describes.structural_le_numCols
    refine .inr ⟨not_lt.1 hpos, t₂, ?_, hdriven.slackBasis hp hrest, fun hzero r' hr' => ?_⟩
    · rw [if_neg hpos, Recorded.outcome_bind, hok]
      show (Recorded.ofExcept (t₁.restrict kept _) >>= _).outcome = _
      rw [hok']
      rfl
    · obtain ⟨k, hk⟩ := List.mem_iff_getElem?.1 hr'
      obtain ⟨i, r, -, hr, rfl⟩ := hrest.exists_of_getElem? hk
      exact hrhs hzero r (List.mem_of_getElem? hr)

end Simplex

end BranchBound
