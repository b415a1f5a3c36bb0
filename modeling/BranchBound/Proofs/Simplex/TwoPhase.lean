import BranchBound.Proofs.Simplex.PhaseOne
import BranchBound.Simplex.TwoPhase

/-!
# The verdicts of a linear solve

Along the second phase the tableau keeps a feasible basis, and the cost of a solution is the
program's objective, negated for maximization (`Priced`).  Where the iteration ends for want of an
improving column the basic point is optimal, and where it ends for want of a limiting row there are
feasible points of any value.

Every verdict of a linear solve is true of the program (`solve_truthful`).
-/

namespace BranchBound

variable {K : Type} [ExactScalar K]

namespace Simplex

open Tableau LinearProgram

variable {settings : Settings K} {p : LinearProgram K} {t t' : Tableau K}

/-- Without negative right-hand sides the values at the basic point are a feasible point. -/
theorem SlackBasis.feasible_primalValues (hp : p.Shaped) (h : SlackBasis p t)
    (hrhs : t.RhsNonneg) : p.Feasible (t.primalValues p.numVars) := by
  have hc := h.canonical
  rw [primalValues_eq hc]
  exact feasible_of_slack hp ((h.solves_iff _).1 hc.solves_basicPoint) (hc.basicPoint_nonneg hrhs)

/-- A feasible basis with the program's objective, to be minimized. -/
def Priced (p : LinearProgram K) : Tableau K → Prop :=
  Represents (p.numVars + p.numConstraints) (SlackForm p)
    fun z => p.sense.cost (combination p.objective z)

/-- The costs for minimization are the objective's with the sign that makes a better one smaller. -/
theorem combination_minimizationCosts (p : LinearProgram K) (numStructural : ℕ) (z : ℕ → K) :
    combination (minimizationCosts p numStructural) z =
      p.sense.cost (combination p.objective z) := by
  rw [minimizationCosts, combination_append, combination_map_mul, combination_replicate_zero,
    add_zero]
  cases p.sense with
  | maximize => exact neg_one_mul _
  | minimize => exact one_mul _

omit [ExactScalar K] in
/-- There is a cost for every variable and every slack. -/
theorem length_minimizationCosts [Scalar K] (p : LinearProgram K) :
    (minimizationCosts p (p.numVars + p.numConstraints)).length =
      p.numVars + p.numConstraints := by
  rw [minimizationCosts, List.length_append, List.length_map, List.length_replicate,
    Nat.add_sub_cancel_left]
  rfl

/-- **The tableau in which the second phase starts.** -/
theorem FeasibleBasis.setObjective_minimizationCosts (h : FeasibleBasis p t) :
    ∃ t', t.setObjective (minimizationCosts p (p.numVars + p.numConstraints)) = .ok t' ∧
      Priced p t' := by
  obtain ⟨t', hok, hrep⟩ :=
    exists_setObjective h.proper ((length_minimizationCosts p).trans h.numCols_eq.symm)
  refine ⟨t', hok, hrep.proper, hrep.numCols_eq.trans h.numCols_eq,
    fun z => (hrep.solves_iff z).trans (h.solves_iff z), fun z hz => ?_⟩
  rw [hrep.costAt_eq z hz, combination_minimizationCosts]

namespace Priced

variable (h : Priced p t)
include h

theorem structural_le_numCols : p.numVars + p.numConstraints ≤ t.numCols := h.numCols_eq.ge

/-- The steps of the second phase keep what holds at its start. -/
theorem of_steps (hs : settings.IsExact) {k : ℕ}
    (hsteps : Steps settings (p.numVars + p.numConstraints) k t t') : Priced p t' :=
  Represents.of_steps h hs le_rfl hsteps

/-- The values at the basic point are a feasible point. -/
theorem feasible_primalValues (hp : p.Shaped) : p.Feasible (t.primalValues p.numVars) :=
  SlackBasis.feasible_primalValues hp h.describes h.proper.rhsNonneg

/-- What the objective row says of the values at the basic point. -/
theorem cost_valueAt_primalValues :
    p.sense.cost (p.valueAt (t.primalValues p.numVars)) = -t.constant := by
  have hc := h.proper.canonical
  rw [primalValues_eq hc, ← hc.costAt_basicPoint, h.costAt_eq _ hc.solves_basicPoint]
  exact congrArg _ (dot_truncate rfl _)

/-- **Without an improving column no feasible point costs less than the basic point.** -/
theorem neg_constant_le_cost (hp : p.Shaped)
    (hopt : ∀ j < p.numVars + p.numConstraints, 0 ≤ t.objective.coef j) {y : List K}
    (hy : p.Feasible y) : -t.constant ≤ p.sense.cost (p.valueAt y) := by
  have hsolves := (h.solves_iff _).2 (slackForm_slackPoint hp y)
  have hvalue : p.valueAt y = combination p.objective (slackPoint p y) := by
    rw [valueAt, dot_eq_combination]
    exact combination_congr fun j hj => (slackPoint_of_lt hj y).symm
  rw [hvalue, ← h.costAt_eq _ hsolves]
  exact neg_constant_le_costAt hopt (slackPoint_nonneg hy) fun j hj => slackPoint_of_le hp y hj

/-- **Where nothing limits an improving column there are feasible points of any cost.** -/
theorem exists_feasible_cost_lt (hp : p.Shaped) {col : ℕ} (hcost : t.objective.coef col < 0)
    (hrows : ∀ r ∈ t.rows, r.line.coef col ≤ 0) (v : K) :
    ∃ y, p.Feasible y ∧ p.sense.cost (p.valueAt y) < v := by
  obtain ⟨z, hz, hnonneg, hlt⟩ :=
    h.proper.canonical.exists_costAt_lt h.proper.rhsNonneg hcost hrows v
  refine ⟨truncate p z, feasible_of_slack hp ((h.solves_iff z).1 hz) hnonneg, ?_⟩
  rw [valueAt, dot_truncate rfl, ← h.costAt_eq z hz]
  exact hlt

end Priced

/-! ## The second phase -/

/-- The value of an optimal result is the objective at its point. -/
theorem Priced.outcome_conclude_optimal {s : Stage K} (h : Priced p s.tableau) :
    (conclude p s .optimal).outcome =
      .ok (.optimal (s.tableau.primalValues p.numVars)
        (p.valueAt (s.tableau.primalValues p.numVars)) s.pivots) := by
  have hcost := h.cost_valueAt_primalValues
  unfold conclude
  cases hsense : p.sense with
  | maximize =>
      rw [hsense] at hcost
      rw [neg_injective hcost]
      rfl
  | minimize =>
      rw [hsense] at hcost
      rw [← hcost]
      rfl

/-- **The result that belongs to the end of the second phase is true.** -/
theorem conclude_spec (hp : p.Shaped) (hs : settings.IsExact) {s : Stage K}
    (h : Priced p s.tableau) {ending : Ending}
    (hend : nextMove settings (p.numVars + p.numConstraints) s.tableau = .ok (.halt ending) ∨
      (ending = .pivotLimit ∧ s.pivots = settings.maxPivots)) :
    ∃ solution, (conclude p s ending).outcome = .ok solution ∧ Truthful settings p solution := by
  obtain hmove | ⟨rfl, hpivots⟩ := hend
  · have hmoveAt := moveAt_of_nextMove hs h.proper.canonical h.structural_le_numCols hmove
    cases hmoveAt with
    | optimal hopt =>
        refine ⟨_, h.outcome_conclude_optimal, h.feasible_primalValues hp, rfl, ?_⟩
        intro y hy
        rw [Sense.improves_eq_false_iff]
        apply le_trans _ (h.neg_constant_le_cost hp hopt hy)
        exact h.cost_valueAt_primalValues.le
    | unbounded hent hrows =>
        refine ⟨_, rfl, ?_⟩
        intro v
        obtain ⟨y, hy, hlt⟩ := h.exists_feasible_cost_lt hp hent.cost_neg hrows (p.sense.cost v)
        exact ⟨y, hy, (Sense.improves_iff _ _ _).2 hlt⟩
  · exact ⟨_, rfl, hpivots⟩

omit [ExactScalar K] in
/-- The result of the second phase goes by the end of its run. -/
theorem outcome_phaseTwo [Scalar K] {pivots : ℕ} {s : Stage K} {ending : Ending}
    {solution : Solution K}
    (hok : t.setObjective (minimizationCosts p (p.numVars + p.numConstraints)) = .ok t')
    (hiter : (iterate settings (p.numVars + p.numConstraints) (settings.maxPivots - pivots)
      ⟨t', pivots⟩).outcome = .ok (s, ending))
    (hconclude : (conclude p s ending).outcome = .ok solution) :
    (phaseTwo settings p (p.numVars + p.numConstraints) t pivots).outcome = .ok solution := by
  rw [phaseTwo, hok]
  show (iterate settings (p.numVars + p.numConstraints) (settings.maxPivots - pivots)
    ⟨t', pivots⟩ >>= _).outcome = _
  rw [Recorded.outcome_bind, hiter]
  show (conclude p s ending >>= _).outcome = _
  rw [Recorded.outcome_bind, hconclude]
  rfl

/-- **From a feasible basis the second phase is a run of the iteration with a true result.** -/
theorem phaseTwo_spec (hp : p.Shaped) (hs : settings.IsExact) (h : FeasibleBasis p t) {pivots : ℕ}
    (hpivots : pivots ≤ settings.maxPivots) :
    ∃ solution,
      (phaseTwo settings p (p.numVars + p.numConstraints) t pivots).outcome = .ok solution ∧
        Truthful settings p solution := by
  obtain ⟨t₁, hok, hpriced⟩ := h.setObjective_minimizationCosts
  obtain ⟨s, ending, hiter, hrun⟩ :=
    iterate_runTo hs.pivotTol_eq.ge (settings.maxPivots - pivots) (s := ⟨t₁, pivots⟩)
      hpriced.proper.canonical hpriced.structural_le_numCols
  obtain ⟨solution, hconclude, htruthful⟩ := conclude_spec hp hs (hpriced.of_steps hs hrun.steps)
    (hrun.ends.imp_right fun hlimit => ⟨hlimit.1, hlimit.2.trans (Nat.add_sub_cancel' hpivots)⟩)
  exact ⟨solution, outcome_phaseTwo hok hiter hconclude, htruthful⟩

/-! ## Both phases -/

/-- The first phase spends no more than the budget, all of it when it stops for that reason, and
what it says is true. -/
theorem phaseOne_holds (hp : p.Shaped) (hs : settings.IsExact) :
    ∃ r pivots, (phaseOne settings (standardForm settings p)).outcome = .ok (r, pivots) ∧
      PhaseOneHolds p r ∧ pivots ≤ settings.maxPivots ∧
        (r = .pivotLimit → pivots = settings.maxPivots) := by
  by_cases hart : (standardForm settings p).numArtificial = 0
  · exact ⟨_, 0, phaseOne_of_numArtificial_eq_zero hart, feasibleBasis_standardForm hp hs hart,
      Nat.zero_le _, by simp⟩
  · obtain ⟨t, hok, ht⟩ := setObjective_artificialCosts hp hs
    obtain ⟨s, ending, r, hphase, hend⟩ := phaseOne_spec hp hs hart hok
    have hle := hend.run.le_budget
    rw [Nat.zero_add] at hle
    refine ⟨r, s.pivots, hphase, hend.holds, hle, ?_⟩
    intro hr
    have hlimit := hend.pivotLimit_iff.1 hr
    subst hlimit
    obtain hmove | ⟨-, hpivots⟩ := hend.run.ends
    · have hlast := ht.of_steps hs hend.run.steps
      cases moveAt_of_nextMove hs hlast.proper.canonical hlast.structural_le_numCols hmove
    · rwa [Nat.zero_add] at hpivots

omit [ExactScalar K] in
/-- The result of a solve goes by the outcome of its first phase. -/
theorem outcome_twoPhase [Scalar K] {r : Feasibility K} {pivots : ℕ} :
    (phaseOne settings (standardForm settings p)).outcome = .ok (r, pivots) →
      (twoPhase settings p).outcome = match r with
        | .feasible t => (phaseTwo settings p (p.numVars + p.numConstraints) t pivots).outcome
        | .infeasible => .ok (.infeasible pivots)
        | .pivotLimit => .ok (.pivotLimit pivots) := by
  intro hphase
  unfold twoPhase
  simp only [Recorded.outcome_bind]
  rw [hphase]
  cases r <;> rfl

/-- **Both phases together give a true result.** -/
theorem twoPhase_spec (hp : p.Shaped) (hs : settings.IsExact) :
    ∃ solution, (twoPhase settings p).outcome = .ok solution ∧ Truthful settings p solution := by
  obtain ⟨r, pivots, hphase, hholds, hle, hlimit⟩ := phaseOne_holds hp hs
  rw [outcome_twoPhase hphase]
  cases r with
  | feasible t => exact phaseTwo_spec hp hs hholds hle
  | infeasible => exact ⟨_, rfl, hholds⟩
  | pivotLimit => exact ⟨_, rfl, hlimit rfl⟩

end Simplex

namespace LinearProgram

omit [ExactScalar K] in
/-- A program that passes its check is solved in two phases. -/
theorem solve_eq_ok [Scalar K] {p : LinearProgram K} (hcheck : p.check = .ok ())
    (settings : Settings K) : p.solve settings = .ok (Simplex.twoPhase settings p) := by
  rw [solve, hcheck]
  rfl

omit [ExactScalar K] in
/-- What has been solved has passed its check. -/
theorem check_of_solve_eq_ok [Scalar K] {settings : Settings K} {p : LinearProgram K}
    {run : Simplex.Run K (Solution K)} (h : p.solve settings = .ok run) :
    p.check = .ok () ∧ Simplex.twoPhase settings p = run := by
  rw [solve] at h
  cases hcheck : p.check with
  | error defect =>
      rw [hcheck] at h
      cases h
  | ok _ =>
      rw [hcheck] at h
      exact ⟨rfl, Except.ok.inj h⟩

/-- **A sound program with zero tolerances is solved, and the verdict is true**: an optimal point is
feasible, has the reported value, and no feasible point is better; a program found infeasible has
no feasible point; a program found unbounded has feasible points better than any value; and a solve
stopped by the limit has counted that many pivots. -/
theorem solve_truthful {settings : Settings K} {p : LinearProgram K} (hcheck : p.check = .ok ())
    (hs : settings.IsExact) :
    ∃ run solution, p.solve settings = .ok run ∧ run.outcome = .ok solution ∧
      Truthful settings p solution := by
  obtain ⟨solution, hok, htrue⟩ := Simplex.twoPhase_spec (p.check_eq_ok_iff.1 hcheck) hs
  exact ⟨_, solution, solve_eq_ok hcheck settings, hok, htrue⟩

/-- Minimize `2 x₁ + 3 x₂` under `x₁ + x₂ ≥ 4` and `x₁ + 3 x₂ ≥ 6`.  Both constraints are negated,
so both phases have work to do. -/
def covering : LinearProgram ℚ where
  objective := [2, 3]
  rows := [[-1, -1], [-1, -3]]
  limits := [-4, -6]
  sense := .minimize

/-- The covering program is solved with two pivots, and nothing costs less than `9`. -/
theorem covering_solve_truthful :
    covering.check = .ok () ∧ (Settings.exact .dantzig 50 : Settings ℚ).IsExact ∧
    ∃ run, covering.solve (Settings.exact .dantzig 50) = .ok run ∧
      run.outcome = .ok (.optimal [3, 1] 9 2) ∧ covering.Feasible [3, 1] ∧
        ∀ y, covering.Feasible y → covering.sense.improves (covering.valueAt y) 9 = false := by
  have hs : (Settings.exact .dantzig 50 : Settings ℚ).IsExact := Settings.isExact_exact .dantzig 50
  obtain ⟨run, solution, hrun, hout, htrue⟩ := solve_truthful (p := covering) rfl hs
  have heval : (Simplex.twoPhase (Settings.exact .dantzig 50) covering).outcome =
      .ok (.optimal [3, 1] 9 2) := by
    decide +kernel
  obtain rfl : Simplex.twoPhase (Settings.exact .dantzig 50) covering = run := Except.ok.inj hrun
  obtain rfl := Except.ok.inj (hout.symm.trans heval)
  exact ⟨rfl, hs, _, hrun, heval, htrue.1, htrue.2.2⟩

end LinearProgram

end BranchBound
