import BranchBound.Proofs.Simplex.TwoPhase

/-!
# The last tableau of an optimal solve

Whatever the tolerances are, an optimal solve ends at the basic point of a tableau for the program's
own slack equations (`twoPhase_optimal`, `EndsAt.slackBasis`): no row is lost, and every row of the
program holds with equality once its slack is added.  All that can go wrong is the sign of a value.
So the point keeps within a tolerance exactly if no right-hand side of the tableau falls below it
(`SlackBasis.withinTolerance_primalValues_iff`).
-/

namespace BranchBound

variable {K : Type} [ExactScalar K]

namespace LinearProgram

/-- No coordinate lies further below zero than the tolerance, and no row exceeds its limit by more
than that. -/
def WithinTolerance (p : LinearProgram K) (tol : K) (x : List K) : Prop :=
  (∀ v ∈ x, -tol ≤ v) ∧ p.maxViolation x ≤ tol

theorem foldl_larger_le_iff (vs : List K) (a b : K) :
    vs.foldl Scalar.larger a ≤ b ↔ a ≤ b ∧ ∀ v ∈ vs, v ≤ b := by
  induction vs generalizing a with
  | nil => simp
  | cons v vs ih =>
      rw [List.foldl_cons, ih, ExactScalar.larger_eq, max_le_iff, and_assoc, List.forall_mem_cons]

/-- The largest violation is at most a tolerance if that is so for every row. -/
theorem maxViolation_le_iff (p : LinearProgram K) {tol : K} (htol : 0 ≤ tol) (x : List K) :
    p.maxViolation x ≤ tol ↔ ∀ c ∈ p.rows.zip p.limits, Scalar.dot c.1 x - c.2 ≤ tol := by
  rw [maxViolation, foldl_larger_le_iff, ← List.map_uncurry_zip_eq_zipWith, List.forall_mem_map]
  simp only [Function.uncurry, ExactScalar.larger_eq, max_le_iff, htol, and_true, true_and]

end LinearProgram

namespace Simplex

open Tableau LinearProgram

variable {settings : Settings K} {p : LinearProgram K} {t t₀ : Tableau K}

/-! ## The last tableau -/

/-- The second phase ends at this tableau, for want of an improving column. -/
inductive EndsAt (settings : Settings K) (p : LinearProgram K) : Tableau K → Prop where
  | intro {pivots k : ℕ} {t₀ t₁ t : Tableau K}
      (hphase : (phaseOne settings (standardForm settings p)).outcome =
        .ok (.feasible t₀, pivots))
      (hok : t₀.setObjective (minimizationCosts p (p.numVars + p.numConstraints)) = .ok t₁)
      (hsteps : Steps settings (p.numVars + p.numConstraints) k t₁ t)
      (hhalt : nextMove settings (p.numVars + p.numConstraints) t = .ok (.halt .optimal)) :
      EndsAt settings p t

section Ends

variable (hp : p.Shaped) (htol : 0 ≤ settings.pivotTol) (hlt : settings.pivotTol < 1)
include hp htol hlt

/-- **The last tableau is a basis for the slack equations of the program.** -/
theorem EndsAt.slackBasis (h : EndsAt settings p t) : SlackBasis p t := by
  obtain ⟨hphase, hok, hsteps, -⟩ := h
  have ht₀ := (phaseOne_slackBasis hp htol hlt hphase).1
  obtain ⟨t', hok', ht', -, -⟩ := ht₀.setObjective (length_minimizationCosts p)
  obtain rfl := Except.ok.inj (hok'.symm.trans hok)
  exact ht'.of_steps htol le_rfl hsteps

omit hp hlt in
/-- An optimal second phase is a run that ends for want of an improving column. -/
theorem phaseTwo_optimal (ht₀ : SlackBasis p t₀) {pivots : ℕ} {solution : Solution K}
    (h : (phaseTwo settings p (p.numVars + p.numConstraints) t₀ pivots).outcome = .ok solution)
    (hopt : solution.status = .optimal) :
    ∃ t₁ k t, t₀.setObjective (minimizationCosts p (p.numVars + p.numConstraints)) = .ok t₁ ∧
      Steps settings (p.numVars + p.numConstraints) k t₁ t ∧
      nextMove settings (p.numVars + p.numConstraints) t = .ok (.halt .optimal) ∧
      solution.x = t.primalValues p.numVars := by
  obtain ⟨t₁, hok, ht₁, -, -⟩ := ht₀.setObjective (length_minimizationCosts p)
  obtain ⟨s, ending, hiter, hrun⟩ := iterate_runTo htol (settings.maxPivots - pivots)
    (s := ⟨t₁, pivots⟩) ht₁.canonical ht₁.numCols_eq.ge
  cases ending with
  | optimal =>
      obtain rfl := Except.ok.inj ((outcome_phaseTwo hok hiter rfl).symm.trans h)
      obtain hhalt | ⟨hlimit, -⟩ := hrun.ends
      · exact ⟨t₁, _, s.tableau, hok, hrun.steps, hhalt, rfl⟩
      · cases hlimit
  | unbounded =>
      obtain rfl := Except.ok.inj ((outcome_phaseTwo hok hiter rfl).symm.trans h)
      cases hopt
  | pivotLimit =>
      obtain rfl := Except.ok.inj ((outcome_phaseTwo hok hiter rfl).symm.trans h)
      cases hopt

/-- **An optimal point is read off the last tableau.** -/
theorem twoPhase_optimal {solution : Solution K}
    (h : (twoPhase settings p).outcome = .ok solution) (hopt : solution.status = .optimal) :
    ∃ t, EndsAt settings p t ∧ solution.x = t.primalValues p.numVars := by
  cases hphase : (phaseOne settings (standardForm settings p)).outcome with
  | error fault =>
      rw [twoPhase, Recorded.outcome_bind, hphase] at h
      cases h
  | ok reached =>
      obtain ⟨r, pivots⟩ := reached
      have htwo := (outcome_twoPhase hphase).symm.trans h
      cases r with
      | infeasible =>
          obtain rfl := Except.ok.inj htwo
          cases hopt
      | pivotLimit =>
          obtain rfl := Except.ok.inj htwo
          cases hopt
      | feasible t₀ =>
          obtain ⟨t₁, k, t, hok, hsteps, hhalt, hx⟩ :=
            phaseTwo_optimal htol (phaseOne_slackBasis hp htol hlt hphase).1 htwo hopt
          exact ⟨t, .intro hphase hok hsteps hhalt, hx⟩

end Ends

/-! ## The point of a tableau -/

/-- **A point keeps within a tolerance exactly if no right-hand side of its tableau falls below
it.** -/
theorem SlackBasis.withinTolerance_primalValues_iff (hp : p.Shaped) (h : SlackBasis p t) {tol : K}
    (htol : 0 ≤ tol) :
    p.WithinTolerance tol (t.primalValues p.numVars) ↔ ∀ r ∈ t.rows, -tol ≤ r.line.rhs := by
  have hc := h.canonical
  have hslack : SlackForm p t.basicPoint := (h.solves_iff _).1 hc.solves_basicPoint
  -- the slack of a row is what the row leaves of its limit
  have hrow : ∀ {i c}, (p.rows.zip p.limits)[i]? = some c →
      Scalar.dot c.1 (t.primalValues p.numVars) - c.2 = -t.basicPoint (p.numVars + i) := by
    intro i c hc'
    obtain ⟨hn, -, -⟩ := constraint_bounds .standard hp hc'
    have heq := hslack i c hc'
    rw [primalValues_eq hc]
    have hdot : Scalar.dot c.1 ((List.range p.numVars).map t.basicPoint) =
        combination c.1 t.basicPoint := dot_truncate hn _
    rw [hdot, ← heq]
    ring
  rw [WithinTolerance, maxViolation_le_iff p htol]
  constructor
  · rintro ⟨hvars, hslacks⟩ r hr
    have hlt := hc.basic_lt r hr
    rw [h.numCols_eq] at hlt
    rw [← hc.basicPoint_basic hr]
    rcases lt_or_ge r.basic p.numVars with hvar | hvar
    · refine hvars _ ?_
      rw [primalValues_eq hc]
      exact List.mem_map.2 ⟨r.basic, List.mem_range.2 hvar, rfl⟩
    · obtain ⟨i, hi⟩ := Nat.exists_eq_add_of_le hvar
      have hlen : i < (p.rows.zip p.limits).length := by
        rw [length_constraints hp]
        omega
      have hle := hslacks _ (List.getElem_mem hlen)
      rw [hrow (List.getElem?_eq_getElem hlen), ← hi] at hle
      linarith
  · intro hrhs
    have hpoint : ∀ j, -tol ≤ t.basicPoint j := by
      intro j
      by_cases hj : ∃ r ∈ t.rows, r.basic = j
      · obtain ⟨r, hr, rfl⟩ := hj
        rw [hc.basicPoint_basic hr]
        exact hrhs r hr
      · rw [basicPoint_of_not_basic fun r hr heq => hj ⟨r, hr, heq⟩]
        linarith
    refine ⟨fun v hv => ?_, fun c hc' => ?_⟩
    · rw [primalValues_eq hc] at hv
      obtain ⟨j, -, rfl⟩ := List.mem_map.1 hv
      exact hpoint j
    · obtain ⟨i, hi⟩ := List.mem_iff_getElem?.1 hc'
      rw [hrow hi]
      linarith [hpoint (p.numVars + i)]

end Simplex

end BranchBound
