import BranchBound.Proofs.Simplex.Course

/-!
# The reported value

The value of an optimal solution is not computed from its point: it is read off the objective row.
Over exact scalars it is the objective at that point nevertheless (`solve_value_eq`), whatever the
tolerances are, as long as the one for pivots is not negative, and also where the point itself
satisfies nothing.

All tableaus of a solve are canonical (`Reached.canonical`), even where rows are given up: of the
rows that are kept each is solved for a column of its own.  And while the objective is minimized,
the objective row says of every solution of the rows what the program's objective says
(`Reached.costAt_eq`).  The point of a canonical tableau is such a solution.
-/

namespace BranchBound

variable {K : Type} [ExactScalar K]

namespace Simplex

open Tableau

/-- The rows that a place names, those kept before those to be treated. -/
def Place.rows : Place → List ℕ
  | .exchanging todo kept => kept ++ todo
  | _ => []

variable {settings : LinearProgram.Settings K} {p : LinearProgram K} {t t' : Tableau K}

/-- Within its range an exchange is a pivot, and what it leads to is canonical. -/
theorem canonical_of_exchange (hc : t.Canonical) (htol : 0 ≤ settings.pivotTol) {row col k : ℕ}
    (hrow : row < t.numRows) (hk : k ≤ t.numCols)
    (hcol : exchangeColumn? t row k settings.pivotTol = .ok (some col))
    (hok : t.pivot row col = .ok t') : t'.Canonical := by
  have hr := List.getElem?_eq_getElem hrow
  obtain ⟨hnone, -⟩ | ⟨col', hcol', hlt, hlarge⟩ := exchangeColumn?_cases hc hr hk settings.pivotTol
  · cases hnone.symm.trans hcol
  · obtain rfl : col' = col := by simpa using hcol'.symm.trans hcol
    have hne := abs_pos.1 (htol.trans_lt hlarge)
    rw [pivot_eq hc hr (hlt.trans_le hk) hne] at hok
    obtain rfl := Except.ok.inj hok
    exact canonical_pivoted hc hr (hlt.trans_le hk) hne

/-- A new objective leaves a tableau canonical. -/
theorem repriced_of_setObjective (hc : t.Canonical) {costs : List K}
    (hlen : costs.length = t.numCols) (hok : t.setObjective costs = .ok t') :
    t.Repriced costs t' := by
  obtain ⟨t'', hok', hre⟩ := setObjective_spec hc hlen
  obtain rfl := Except.ok.inj (hok'.symm.trans hok)
  exact hre

section Course

variable {place : Place} (hp : p.Shaped) (htol : 0 ≤ settings.pivotTol)
include hp htol

/-- **Every tableau of a solve is canonical**, and no row is named twice. -/
theorem Reached.canonical (h : Reached settings p place t) : t.Canonical ∧ place.rows.Nodup := by
  have hrange : ∀ {place t}, Reached settings p place t → InRange settings p place t :=
    fun h => h.inRange hp (LawfulScalar.excludesZero htol)
  induction h with
  | standard => exact ⟨standardForm_canonical hp, List.nodup_nil⟩
  | direct _ _ ih => exact ⟨ih.1, List.nodup_nil⟩
  | artificial h _ hok ih =>
      have hlen := (length_artificialCosts settings p).trans (hrange h).sized.numCols_eq.symm
      exact ⟨(repriced_of_setObjective ih.1 hlen hok).canonical, List.nodup_nil⟩
  | artificialPivot h hmove hok ih =>
      have hcols := (hrange h).sized.numCols_eq.ge
      have hstep : Step settings (p.numVars + p.numConstraints) _ _ := ⟨_, _, hmove, hok⟩
      exact ⟨hstep.canonical htol ih.1 ((Nat.le_add_right _ _).trans hcols), List.nodup_nil⟩
  | minimized _ _ _ ih => exact ⟨ih.1, List.nodup_range⟩
  | keep _ _ _ ih =>
      refine ⟨ih.1, ?_⟩
      rw [Place.rows, List.append_assoc]
      exact ih.2
  | exchange h _ _ hcol hok ih =>
      have hcols := (hrange h).sized.numCols_eq.ge
      refine ⟨canonical_of_exchange ih.1 htol ((hrange h).rows.1 _ List.mem_cons_self)
        ((Nat.le_add_right _ _).trans hcols) hcol hok, ?_⟩
      rw [Place.rows, List.append_assoc]
      exact ih.2
  | giveUp _ _ _ _ ih =>
      exact ⟨ih.1, ih.2.sublist ((List.sublist_cons_self _ _).append_left _)⟩
  | cut h hok ih =>
      obtain ⟨-, hkept⟩ := (hrange h).rows
      have hcols := (Nat.le_add_right _ _).trans (hrange h).sized.numCols_eq.ge
      obtain ⟨t'', hok', hrest⟩ := restrict_spec (fun i hi => by
        obtain ⟨r, hr, -⟩ := hkept.exists_row hi
        exact (List.getElem?_eq_some_iff.1 hr).1) hcols
      obtain rfl := Except.ok.inj (hok'.symm.trans hok)
      have hnodup := ih.2
      rw [Place.rows, List.append_nil] at hnodup
      refine ⟨hrest.canonical ih.1 hcols hnodup fun i hi r hr => ?_, List.nodup_nil⟩
      obtain ⟨s, hs, hlt⟩ := hkept.exists_row hi
      obtain rfl := Option.some.inj (hr.symm.trans hs)
      exact hlt
  | priced h hok ih =>
      have hlen := (length_minimizationCosts p).trans (hrange h).sized.numCols_eq.symm
      exact ⟨(repriced_of_setObjective ih.1 hlen hok).canonical, List.nodup_nil⟩
  | pivot h hmove hok ih =>
      have hstep : Step settings (p.numVars + p.numConstraints) _ _ := ⟨_, _, hmove, hok⟩
      exact ⟨hstep.canonical htol ih.1 (hrange h).sized.numCols_eq.ge, List.nodup_nil⟩

/-- **While the objective is minimized, the objective row costs what the program says.** -/
theorem Reached.costAt_eq (h : Reached settings p .optimizing t) :
    ∀ z, t.Solves z → t.costAt z = p.sense.cost (combination p.objective z) := by
  have hcanonical : ∀ {place t}, Reached settings p place t →
      t.Canonical ∧ t.numCols = place.numCols settings p :=
    fun h => ⟨(h.canonical hp htol).1,
      (h.inRange hp (LawfulScalar.excludesZero htol)).sized.numCols_eq⟩
  generalize hplace : Place.optimizing = place at h
  induction h with
  | priced h hok =>
      intro z hz
      obtain ⟨hc, hcols⟩ := hcanonical h
      have hre := repriced_of_setObjective hc ((length_minimizationCosts p).trans hcols.symm) hok
      rw [Solves, hre.rows_eq] at hz
      rw [hre.costAt_eq z hz, combination_minimizationCosts]
  | pivot h hmove hok ih =>
      intro z hz
      obtain ⟨hc, hcols⟩ := hcanonical h
      have hstep : Step settings (p.numVars + p.numConstraints) _ _ := ⟨_, _, hmove, hok⟩
      have hequiv := hstep.equivalent htol hc hcols.ge
      have hz := (hequiv.solves_iff z).1 hz
      rw [hequiv.costAt_eq z hz, ih rfl z hz]
  | _ => cases hplace

/-- **What is read off the last tableau fits together**: there is a value for every variable, and
the value of the solution is the objective there. -/
theorem ReadOff.value_eq {solution : LinearProgram.Solution K} (h : ReadOff settings p solution) :
    solution.x.length = p.numVars ∧ solution.value = p.valueAt solution.x := by
  obtain ⟨t, hreached, -, hx, hvalue⟩ := h
  obtain ⟨hc, -⟩ := hreached.canonical hp htol
  have hcost : p.sense.cost (p.valueAt solution.x) = -t.constant := by
    rw [hx, primalValues_eq hc, ← hc.costAt_basicPoint,
      hreached.costAt_eq hp htol _ hc.solves_basicPoint]
    exact congrArg _ (dot_truncate rfl _)
  refine ⟨by rw [hx, length_primalValues], ?_⟩
  rw [hvalue]
  cases hsense : p.sense with
  | maximize =>
      rw [hsense] at hcost
      exact (neg_injective hcost).symm
  | minimize =>
      rw [hsense] at hcost
      exact hcost.symm

end Course

end Simplex

namespace LinearProgram

open Simplex

variable {settings : Settings K} {p : LinearProgram K}

/-- **The reported value is the objective at the reported point.**  A sound program is solved, and
if it is found optimal, whatever the tolerances, rule and limit, the point has one value per
variable and the value of the solution is the sum of these, each times its coefficient. -/
theorem solve_value_eq (hcheck : p.check = .ok ()) (htol : 0 ≤ settings.pivotTol) :
    ∃ run solution, p.solve settings = .ok run ∧ run.outcome = .ok solution ∧
      (solution.status = .optimal → solution.x.length = p.numVars ∧
        solution.value =
          ∑ j ∈ Finset.range p.numVars, p.objective.getD j 0 * solution.x.getD j 0) := by
  have hp := p.check_eq_ok_iff.1 hcheck
  obtain ⟨solution, hok, -, hread⟩ : ∃ solution, (twoPhase settings p).outcome = .ok solution ∧ _ :=
    exists_twoPhase hp (LawfulScalar.excludesZero htol)
  refine ⟨_, solution, solve_eq_ok hcheck settings, hok, fun hopt => ?_⟩
  obtain ⟨hlength, hvalue⟩ := (hread hopt).value_eq hp htol
  exact ⟨hlength, hvalue.trans (dot_eq_combination _ _)⟩

/-- Maximize `10 x` under `6 x ≤ 3 / 2` and `x ≤ 3 / 2`. -/
def steep : LinearProgram ℚ where
  objective := [10]
  rows := [[6], [1]]
  limits := [3 / 2, 3 / 2]
  sense := .maximize

/-- Tolerances with which both constraints of the steep program are negated, the artificial columns
seem least at once, and the second row has no entry to exchange its column for. -/
def coarse : Settings ℚ where
  maxPivots := 10
  pivotRule := .dantzig
  costTol := 100
  pivotTol := 5
  feasTol := -2

/-- The coarse solve gives up a row and reports the objective at its point all the same. -/
theorem steep_solve_value_eq :
    steep.check = .ok () ∧ 0 ≤ coarse.pivotTol ∧
    ∃ run, steep.solve coarse = .ok run ∧ run.outcome = .ok (.optimal [1 / 4] (5 / 2) 0) ∧
      ∑ j ∈ Finset.range steep.numVars, steep.objective.getD j 0 * [1 / 4].getD j 0 =
        (5 / 2 : ℚ) := by
  have htol : 0 ≤ coarse.pivotTol := by norm_num [coarse]
  have heval : (twoPhase coarse steep).outcome = .ok (.optimal [1 / 4] (5 / 2) 0) := by
    decide +kernel
  obtain ⟨run, solution, hrun, hout, hvalue⟩ := solve_value_eq (p := steep) rfl htol
  obtain rfl : twoPhase coarse steep = run := Except.ok.inj hrun
  obtain rfl := Except.ok.inj (hout.symm.trans heval)
  exact ⟨rfl, htol, _, hrun, heval, (hvalue rfl).2.symm⟩

end LinearProgram

end BranchBound
