import BranchBound.Proofs.Tableau.Canonical

/-!
# Points of a canonical tableau

Any choice of values can be completed to a solution of a canonical tableau by correcting the basic
variables alone (`complete`), each by what its row lacks.  The correction costs nothing, so the
reduced costs of the choice are the cost of the solution (`costAt_complete`).  Completing nothing
gives the basic point, whose first coordinates are the values the program reads off
(`primalValues_eq`).

For a given basis there is only one such correction, so equivalent tableaus with the same basis are
equal (`Canonical.eq_of_basis_eq`).
-/

namespace BranchBound

variable {K : Type} [ExactScalar K]

namespace TableauRow

omit [ExactScalar K] in
theorem eq_of_basic_line {r r' : TableauRow K} (hbasic : r'.basic = r.basic)
    (hline : r'.line = r.line) : r' = r := by
  obtain ⟨b, l⟩ := r
  obtain ⟨b', l'⟩ := r'
  rw [TableauRow.mk.injEq]
  exact ⟨hbasic, hline⟩

/-- What the left-hand side of a row lacks at the given values. -/
def residual (r : TableauRow K) (w : ℕ → K) : K := r.line.rhs - r.line.eval w

@[simp] theorem residual_zero (r : TableauRow K) : r.residual (fun _ => 0) = r.line.rhs := by
  simp [residual, Line.eval, combination]

end TableauRow

namespace Tableau

/-- The values with every basic variable corrected by what its row lacks. -/
def complete (t : Tableau K) (w : ℕ → K) : ℕ → K := fun j =>
  w j + ∑ i : Fin t.rows.length, if j = t.rows[i].basic then t.rows[i].residual w else 0

/-- The point at which all variables that are not basic are zero. -/
def basicPoint (t : Tableau K) : ℕ → K := t.complete fun _ => 0

theorem eval_complete (t : Tableau K) (l : Line K) (w : ℕ → K) :
    l.eval (t.complete w) = l.eval w +
      ∑ i : Fin t.rows.length, l.coef t.rows[i].basic * t.rows[i].residual w := by
  unfold Line.eval
  unfold complete
  rw [combination_add, combination_sum]
  simp only [combination_single]
  rfl

variable {t : Tableau K}

/-- Outside the basis nothing is corrected. -/
theorem complete_of_not_basic {j : ℕ} (h : ∀ r ∈ t.rows, r.basic ≠ j) (w : ℕ → K) :
    t.complete w j = w j := by
  rw [complete, Finset.sum_eq_zero, add_zero]
  intro i _
  exact if_neg (Ne.symm (h _ (List.getElem_mem _)))

theorem basicPoint_of_not_basic {j : ℕ} (h : ∀ r ∈ t.rows, r.basic ≠ j) : t.basicPoint j = 0 :=
  complete_of_not_basic h _

namespace Canonical

variable (hc : t.Canonical)
include hc

/-- A basic variable is corrected by what its own row lacks. -/
theorem complete_basic {r : TableauRow K} (hr : r ∈ t.rows) (w : ℕ → K) :
    t.complete w r.basic = w r.basic + r.residual w := by
  obtain ⟨k, hk, rfl⟩ := List.getElem_of_mem hr
  rw [complete, Finset.sum_eq_single_of_mem (⟨k, hk⟩ : Fin t.rows.length) (Finset.mem_univ _)]
  · simp
  · intro i _ hi
    refine if_neg fun h => hi (Fin.ext ?_)
    exact (hc.eq_of_basic_eq (List.getElem?_eq_getElem hk) (List.getElem?_eq_getElem i.2) h).symm

/-- **Corrected values solve the tableau.** -/
theorem solves_complete (w : ℕ → K) : t.Solves (t.complete w) := by
  intro r hr
  obtain ⟨k, hk, rfl⟩ := List.getElem_of_mem hr
  rw [Line.Holds, eval_complete,
    Finset.sum_eq_single_of_mem (⟨k, hk⟩ : Fin t.rows.length) (Finset.mem_univ _)]
  · have hunit := hc.unit_self (List.getElem_mem hk)
    simp only [Fin.getElem_fin]
    rw [hunit, TableauRow.residual]
    ring
  · intro i _ hi
    have hne : k ≠ i.val := fun h => hi (Fin.ext h.symm)
    simp only [Fin.getElem_fin]
    rw [hc.unit (List.getElem?_eq_getElem i.2) (List.getElem?_eq_getElem hk), if_neg hne, zero_mul]

/-- **The corrections cost nothing.** -/
theorem costAt_complete (w : ℕ → K) :
    t.costAt (t.complete w) = t.objective.eval w - t.constant := by
  rw [costAt, eval_complete, Finset.sum_eq_zero, add_zero]
  intro i _
  simp only [Fin.getElem_fin]
  rw [hc.priced _ (List.getElem_mem _), zero_mul]

/-! ## The basic point -/

theorem basicPoint_basic {r : TableauRow K} (hr : r ∈ t.rows) :
    t.basicPoint r.basic = r.line.rhs := by
  rw [basicPoint, hc.complete_basic hr, TableauRow.residual_zero, zero_add]

theorem solves_basicPoint : t.Solves t.basicPoint := hc.solves_complete _

theorem costAt_basicPoint : t.costAt t.basicPoint = -t.constant := by
  rw [basicPoint, hc.costAt_complete]
  simp [Line.eval, combination]

/-- Without negative right-hand sides the basic point has no negative coordinate. -/
theorem basicPoint_nonneg (hrhs : t.RhsNonneg) (j : ℕ) : 0 ≤ t.basicPoint j := by
  by_cases h : ∃ r ∈ t.rows, r.basic = j
  · obtain ⟨r, hr, rfl⟩ := h
    rw [hc.basicPoint_basic hr]
    exact hrhs r hr
  · rw [basicPoint_of_not_basic fun r hr hj => h ⟨r, hr, hj⟩]

end Canonical

/-! ## The basis determines the tableau -/

namespace Canonical

variable {t' : Tableau K} (hc : t.Canonical)
include hc

/-- Solutions that agree outside the basis agree. -/
theorem eq_of_solves {z z' : ℕ → K} (hz : t.Solves z) (hz' : t.Solves z')
    (h : ∀ j, (∀ r ∈ t.rows, r.basic ≠ j) → z j = z' j) : z = z' := by
  funext j
  by_cases hj : ∃ r ∈ t.rows, r.basic = j
  · obtain ⟨r, hr, rfl⟩ := hj
    -- of the row's terms only the one of its own basic column can differ
    have hterm : ∀ i ∈ Finset.range r.line.coefs.length, i ≠ r.basic →
        r.line.coefs.getD i 0 * z i = r.line.coefs.getD i 0 * z' i := by
      intro i _ hne
      by_cases hi : ∃ s ∈ t.rows, s.basic = i
      · obtain ⟨s, hs, rfl⟩ := hi
        obtain ⟨k, hk⟩ := List.mem_iff_getElem?.1 hs
        obtain ⟨l, hl⟩ := List.mem_iff_getElem?.1 hr
        have hkl : l ≠ k := by
          rintro rfl
          exact hne (congrArg TableauRow.basic (Option.some.inj (hk.symm.trans hl)))
        have hzero := hc.unit hk hl
        rw [if_neg hkl, Line.coef] at hzero
        rw [hzero, zero_mul, zero_mul]
      · rw [h i fun s hs hsi => hi ⟨s, hs, hsi⟩]
    have hmem : r.basic ∈ Finset.range r.line.coefs.length :=
      Finset.mem_range.2 (hc.width r hr ▸ hc.basic_lt r hr)
    have heval : r.line.eval z = r.line.eval z' := (hz r hr).trans (hz' r hr).symm
    rw [Line.eval, Line.eval, combination, combination, ← Finset.add_sum_erase _ _ hmem,
      ← Finset.add_sum_erase _ _ hmem] at heval
    rw [Finset.sum_congr rfl fun i hi =>
      hterm i (Finset.mem_of_mem_erase hi) (Finset.ne_of_mem_erase hi)] at heval
    have hone := hc.unit_self hr
    unfold Line.coef at hone
    rw [hone, one_mul, one_mul] at heval
    exact add_right_cancel heval
  · exact h j fun r hr hrj => hj ⟨r, hr, hrj⟩

/-- A solution that is zero outside the basis is the basic point. -/
theorem eq_basicPoint {z : ℕ → K} (hz : t.Solves z)
    (h : ∀ j, (∀ r ∈ t.rows, r.basic ≠ j) → z j = 0) : z = t.basicPoint :=
  hc.eq_of_solves hz hc.solves_basicPoint fun j hj => by rw [h j hj, basicPoint_of_not_basic hj]

/-- Equivalent tableaus with the same basic columns correct values alike. -/
theorem complete_eq (hc' : t'.Canonical) (hequiv : t.Equivalent t')
    (hbasis : t'.basis = t.basis) (w : ℕ → K) : t'.complete w = t.complete w := by
  have hmem : ∀ j, (∀ r ∈ t.rows, r.basic ≠ j) ↔ ∀ r ∈ t'.rows, r.basic ≠ j := by
    intro j
    rw [← not_mem_basis_iff, ← not_mem_basis_iff, hbasis]
  refine hc.eq_of_solves ((hequiv.solves_iff _).1 (hc'.solves_complete w)) (hc.solves_complete w)
    fun j hj => ?_
  rw [complete_of_not_basic hj, complete_of_not_basic ((hmem j).1 hj)]

/-- **Equivalent canonical tableaus with the same basis are equal.** -/
theorem eq_of_basis_eq (hc' : t'.Canonical) (hequiv : t.Equivalent t')
    (hbasis : t'.basis = t.basis) : t' = t := by
  have hcomplete := hc.complete_eq hc' hequiv hbasis
  have hrows : t'.rows = t.rows := by
    have hlen : t'.rows.length = t.rows.length := by
      simpa [basis] using congrArg List.length hbasis
    apply List.ext_getElem hlen
    intro i hi' hi
    have hr' := List.getElem_mem hi'
    have hr := List.getElem_mem hi
    have hb : (t'.rows[i]).basic = (t.rows[i]).basic := by
      have := congrArg (fun b : List ℕ => b[i]?) hbasis
      simpa [basis, hi, hi'] using this
    have hl : (t'.rows[i]).line = (t.rows[i]).line := by
      have hwidth := (hc.width _ hr).trans (hequiv.numCols_eq.symm.trans (hc'.width _ hr').symm)
      apply Line.ext_residual hwidth
      intro w
      have h := congrFun (hcomplete w) (t.rows[i]).basic
      rw [hc.complete_basic hr, ← hb, hc'.complete_basic hr'] at h
      exact add_left_cancel h
    exact TableauRow.eq_of_basic_line hb hl
  have hobj : t'.objective = t.objective := by
    apply Line.ext_residual hequiv.numCols_eq.symm
    intro w
    have h := hequiv.costAt_eq _ (hc.solves_complete w)
    rw [hc.costAt_complete, ← hcomplete w, hc'.costAt_complete, constant, constant] at h
    linarith
  obtain ⟨rows, objective⟩ := t
  obtain ⟨rows', objective'⟩ := t'
  rw [Tableau.mk.injEq]
  exact ⟨hrows, hobj⟩

end Canonical

/-! ## The values that are read off -/

omit [ExactScalar K] in
theorem length_foldl_set (rows : List (TableauRow K)) (x : List K) :
    (rows.foldl (fun x row => x.set row.basic row.line.rhs) x).length = x.length := by
  induction rows generalizing x with
  | nil => rfl
  | cons r rows ih => rw [List.foldl_cons, ih, List.length_set]

omit [ExactScalar K] in
theorem getElem?_foldl_set_of_ne {rows : List (TableauRow K)} {j : ℕ}
    (h : ∀ r ∈ rows, r.basic ≠ j) (x : List K) :
    (rows.foldl (fun x row => x.set row.basic row.line.rhs) x)[j]? = x[j]? := by
  induction rows generalizing x with
  | nil => rfl
  | cons r rows ih =>
      rw [List.foldl_cons, ih fun s hs => h s (List.mem_cons_of_mem _ hs),
        List.getElem?_set_ne (h r List.mem_cons_self)]

omit [ExactScalar K] in
theorem getElem?_foldl_set_of_mem {rows : List (TableauRow K)}
    (hnd : (rows.map TableauRow.basic).Nodup) {r : TableauRow K} (hr : r ∈ rows) {x : List K}
    (hx : r.basic < x.length) :
    (rows.foldl (fun x row => x.set row.basic row.line.rhs) x)[r.basic]? = some r.line.rhs := by
  induction rows generalizing x with
  | nil => simp at hr
  | cons s rows ih =>
      rw [List.map_cons, List.nodup_cons] at hnd
      rw [List.foldl_cons]
      rcases List.mem_cons.1 hr with rfl | hr
      · rw [getElem?_foldl_set_of_ne, List.getElem?_set_self hx]
        intro s hs heq
        exact hnd.1 (List.mem_map.2 ⟨s, hs, heq⟩)
      · exact ih hnd.2 hr (by rwa [List.length_set])

omit [ExactScalar K] in
/-- As many values are read off as are asked for. -/
theorem length_primalValues [Scalar K] (t : Tableau K) (n : ℕ) : (t.primalValues n).length = n := by
  rw [primalValues, length_foldl_set, List.length_replicate]

/-- **The values read off are the first coordinates of the basic point.** -/
theorem primalValues_eq (hc : t.Canonical) (n : ℕ) :
    t.primalValues n = (List.range n).map t.basicPoint := by
  have hlen := length_primalValues t n
  apply List.ext_getElem?
  intro j
  by_cases hj : j < n
  · rw [List.getElem?_map, List.getElem?_range hj, Option.map_some]
    by_cases h : ∃ r ∈ t.rows, r.basic = j
    · obtain ⟨r, hr, rfl⟩ := h
      rw [hc.basicPoint_basic hr]
      exact getElem?_foldl_set_of_mem hc.basis_nodup hr (by rwa [List.length_replicate])
    · rw [basicPoint_of_not_basic fun r hr hj => h ⟨r, hr, hj⟩, primalValues,
        getElem?_foldl_set_of_ne (fun r hr hj => h ⟨r, hr, hj⟩),
        List.getElem?_replicate_of_lt hj]
  · rw [List.getElem?_eq_none (by omega), List.getElem?_eq_none (by simp; omega)]

end Tableau

end BranchBound
