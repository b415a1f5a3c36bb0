import BranchBound.Proofs.Simplex.Cycling
import BranchBound.Proofs.Tableau.Optimality

/-!
# The way of the primal iteration

Over tolerances of zero every pivot of the iteration keeps the right-hand sides from falling below
zero and the objective constant from falling at all (`Ascends`, `ascends_of_nextMove`).  By
induction that holds of every tableau on the way (`Steps.ascends`).

How the iteration ends is read off the last tableau.  The budget is looked at after the choice of
a pivot, so a run that stops for want of budget has a pivot left to make, and it is optimal exactly
if no candidate has a negative reduced cost (`optimal_iff`).  An unbounded run ends at a column that
can be raised without limit (`Ray`).
-/

namespace BranchBound

variable {K : Type} [ExactScalar K]

namespace Simplex

open Tableau

variable {settings : LinearProgram.Settings K} {candidates : ℕ} {t t' : Tableau K}

/-! ## One pivot -/

/-- A pivot in the row `p` leads from `t` to a tableau with no negative right-hand side and no
smaller constant, and to a larger constant exactly if the row has a positive right-hand side. -/
structure Ascends (t : Tableau K) (p : TableauRow K) (t' : Tableau K) : Prop where
  proper : t'.Proper
  numCols_eq : t'.numCols = t.numCols
  constant_le : t.constant ≤ t'.constant
  constant_lt_iff : t.constant < t'.constant ↔ 0 < p.line.rhs

section Exact

variable (hcost : settings.costTol = 0) (hpivot : settings.pivotTol = 0) (ht : t.Proper)
  (hcand : candidates ≤ t.numCols)
include hcost hpivot ht hcand

/-- **The pivot that comes next can be made, and it does not descend.** -/
theorem ascends_of_nextMove {row col : ℕ}
    (h : nextMove settings candidates t = .ok (.pivot row col)) :
    ∃ p t', t.rows[row]? = some p ∧ t.pivot row col = .ok t' ∧ Ascends t p t' := by
  obtain _ | _ | ⟨hent, hleave⟩ := moveWithin_of_nextMove ht.canonical hcand h
  rename_i p
  rw [hcost] at hent
  rw [hpivot] at hleave
  have hcol := hent.lt_limit.trans_le hcand
  obtain ⟨hle, hlt⟩ := hleave.constant_pivoted ht.rhsNonneg hent.cost_neg
  exact ⟨p, _, hleave.get, pivot_eq ht.canonical hleave.get hcol hleave.lt_entry.ne',
    ht.pivoted hcol hleave, numCols_pivoted col ht.canonical hleave.get, hle, hlt⟩

/-- A step does not descend. -/
theorem Step.ascends (h : Step settings candidates t t') : ∃ p, Ascends t p t' := by
  obtain ⟨row, col, hmove, hok⟩ := h
  obtain ⟨p, t'', -, hok', hasc⟩ := ascends_of_nextMove hcost hpivot ht hcand hmove
  obtain rfl := Except.ok.inj (hok'.symm.trans hok)
  exact ⟨p, hasc⟩

/-- **What one pivot keeps, a run keeps.** -/
theorem Steps.ascends {k : ℕ} (h : Steps settings candidates k t t') :
    t'.Proper ∧ t'.numCols = t.numCols ∧ t.constant ≤ t'.constant := by
  induction h with
  | refl t => exact ⟨ht, rfl, le_rfl⟩
  | head first _ ih =>
      obtain ⟨p, hasc⟩ := first.ascends hcost hpivot ht hcand
      obtain ⟨hproper, hcols, hle⟩ := ih hasc.proper (hasc.numCols_eq ▸ hcand)
      exact ⟨hproper, hcols.trans hasc.numCols_eq, hasc.constant_le.trans hle⟩

omit hpivot ht in
/-- No pivot is looked for exactly if no candidate has a negative reduced cost. -/
theorem nextMove_optimal_iff (hc : t.Canonical) :
    nextMove settings candidates t = .ok (.halt .optimal) ↔
      ∀ j < candidates, 0 ≤ t.objective.coef j := by
  obtain ⟨move, hok, hmove⟩ := exists_moveWithin settings hc hcand
  rw [hok]
  cases hmove with
  | optimal h =>
      rw [hcost, neg_zero] at h
      exact iff_of_true rfl h
  | unbounded hent _ | pivot hent _ =>
      rw [hcost] at hent
      exact iff_of_false (by simp) fun h => not_lt.2 (h _ hent.lt_limit) hent.cost_neg

end Exact

/-! ## Columns without limit -/

/-- The column improves the objective and no row limits it: it can be raised to every value, the
other columns outside the basis staying zero, and all rows hold without a negative coordinate. -/
structure Ray (t : Tableau K) (candidates col : ℕ) : Prop where
  lt_candidates : col < candidates
  cost_neg : t.objective.coef col < 0
  entry_nonpos : ∀ r ∈ t.rows, r.line.coef col ≤ 0
  solves : ∀ θ, t.Solves (t.raise col θ)
  raised : ∀ θ, t.raise col θ col = θ
  others : ∀ θ j, j ∉ t.basis → j ≠ col → t.raise col θ j = 0
  basic : ∀ θ, ∀ r ∈ t.rows, t.raise col θ r.basic = r.line.rhs - r.line.coef col * θ
  nonneg : ∀ θ, 0 ≤ θ → ∀ j, 0 ≤ t.raise col θ j

/-- An improving column without a positive entry is a ray. -/
theorem ray_of_entry_nonpos (ht : t.Proper) {col : ℕ} (hcol : col < candidates)
    (hcost : t.objective.coef col < 0) (hrows : ∀ r ∈ t.rows, r.line.coef col ≤ 0) :
    Ray t candidates col where
  lt_candidates := hcol
  cost_neg := hcost
  entry_nonpos := hrows
  solves := ht.canonical.solves_raise col
  raised θ := by
    rw [raise_of_not_basic fun r hr => ht.canonical.ne_basic_of_coef_ne_zero hcost.ne hr,
      if_pos rfl]
  others θ j hj hne := by
    rw [raise_of_not_basic (not_mem_basis_iff.1 hj), if_neg hne]
  basic θ r hr :=
    ht.canonical.raise_basic hr (ht.canonical.ne_basic_of_coef_ne_zero hcost.ne hr) θ
  nonneg θ hθ := ht.canonical.raise_nonneg ht.rhsNonneg hcost.ne hrows hθ

/-- Where the iteration calls a tableau unbounded there is a ray. -/
theorem exists_ray (hcost : settings.costTol = 0) (hpivot : settings.pivotTol = 0) (ht : t.Proper)
    (hcand : candidates ≤ t.numCols)
    (h : nextMove settings candidates t = .ok (.halt .unbounded)) :
    ∃ col, Ray t candidates col := by
  obtain _ | ⟨hent, hrows⟩ | _ := moveWithin_of_nextMove ht.canonical hcand h
  rw [hcost] at hent
  rw [hpivot] at hrows
  exact ⟨_, ray_of_entry_nonpos ht hent.lt_limit hent.cost_neg hrows⟩

/-! ## The end -/

namespace RunTo

variable {budget : ℕ} {s s' : Stage K} {ending : Ending}

/-- A run ends as optimal exactly if there is no pivot to look for at its end. -/
theorem optimal_iff (h : RunTo settings candidates budget s s' ending)
    (hout : (iterate settings candidates budget s).outcome = .ok (s', ending)) :
    ending = .optimal ↔ nextMove settings candidates s'.tableau = .ok (.halt .optimal) := by
  constructor
  · rintro rfl
    exact h.ends.resolve_right fun hlimit => Ending.noConfusion hlimit.1
  · -- a budget that is just used up does not hide the verdict
    intro hmove
    have hbudget : s'.pivots - s.pivots ≤ budget := by
      have := h.le_budget
      omega
    have heq := hout.symm.trans (iterate_of_halt h.steps hmove hbudget)
    exact congrArg Prod.snd (Except.ok.inj heq)

theorem nextMove_unbounded (h : RunTo settings candidates budget s s' .unbounded) :
    nextMove settings candidates s'.tableau = .ok (.halt .unbounded) :=
  h.ends.resolve_right fun hlimit => Ending.noConfusion hlimit.1

end RunTo

/-- **The primal iteration keeps right-hand sides from falling below zero and never worsens the
objective.**  From a canonical tableau without negative right-hand sides, with tolerances of zero
for costs and pivots, it ends.  Every pivot that it comes to can be made, leaves no right-hand side
negative and the constant no smaller, and makes the constant larger exactly if the leaving row had a
positive right-hand side.  The end is optimal exactly if no candidate has a negative reduced cost
there; if it is unbounded, some candidate with a negative reduced cost has no positive entry and can
be raised without limit. -/
theorem primal_never_descends (hcost : settings.costTol = 0) (hpivot : settings.pivotTol = 0)
    {s : Stage K} (hs : s.tableau.Proper) (hcand : candidates ≤ s.tableau.numCols) :
    ∃ s' ending, (primal settings candidates s).outcome = .ok (s', ending) ∧
      Steps settings candidates (s'.pivots - s.pivots) s.tableau s'.tableau ∧
      s'.tableau.Proper ∧ s.tableau.constant ≤ s'.tableau.constant ∧
      (∀ k t row col, Steps settings candidates k s.tableau t →
        nextMove settings candidates t = .ok (.pivot row col) →
        ∃ p t', t.rows[row]? = some p ∧ t.pivot row col = .ok t' ∧
          t'.Proper ∧ t.constant ≤ t'.constant ∧
          (t.constant < t'.constant ↔ 0 < p.line.rhs)) ∧
      (ending = .optimal ↔ ∀ j < candidates, 0 ≤ s'.tableau.objective.coef j) ∧
      (ending = .unbounded → ∃ col, Ray s'.tableau candidates col) := by
  obtain ⟨s', ending, hout, hrun⟩ := iterate_runTo hpivot.ge (settings.maxPivots - s.pivots)
    hs.canonical hcand
  obtain ⟨hproper, hcols, hle⟩ := hrun.steps.ascends hcost hpivot hs hcand
  have hcand' : candidates ≤ s'.tableau.numCols := hcols ▸ hcand
  refine ⟨s', ending, hout, hrun.steps, hproper, hle, ?_, ?_, ?_⟩
  · intro k t row col hsteps hmove
    obtain ⟨ht, hcols', -⟩ := hsteps.ascends hcost hpivot hs hcand
    obtain ⟨p, t', hp, hok, hasc⟩ := ascends_of_nextMove hcost hpivot ht (hcols' ▸ hcand) hmove
    exact ⟨p, t', hp, hok, hasc.proper, hasc.constant_le, hasc.constant_lt_iff⟩
  · rw [hrun.optimal_iff hout]
    exact nextMove_optimal_iff hcost hcand' hproper.canonical
  · rintro rfl
    exact exists_ray hcost hpivot hproper hcand' hrun.nextMove_unbounded

/-- Maximize `x + y` under `x - y ≤ 1`, at the point zero. -/
def openDiagonal : Tableau ℚ := ⟨[⟨2, ⟨[1, -1, 1], 1⟩⟩], ⟨[-1, -1, 0], 0⟩⟩

/-- The first pivot makes `x` basic in a row of right-hand side one, and the constant becomes one.
Then `y` can be raised without limit. -/
theorem openDiagonal_primal_never_descends :
    openDiagonal.Proper ∧
    ∃ s', (primal ⟨5, .dantzig, 0, 0, 1 / 8⟩ 3 ⟨openDiagonal, 0⟩).outcome =
        .ok (s', .unbounded) ∧
      s'.pivots = 1 ∧ s'.tableau.Proper ∧ openDiagonal.constant < s'.tableau.constant ∧
      ∃ col, Ray s'.tableau 3 col := by
  have hproper : openDiagonal.Proper := ⟨by decide +kernel, List.forall_mem_singleton.2 zero_le_one⟩
  have hmove : nextMove ⟨5, .dantzig, 0, 0, 1 / 8⟩ 3 openDiagonal = .ok (.pivot 0 0) := by
    decide +kernel
  have hpivot : openDiagonal.pivot 0 0 = .ok ⟨[⟨0, ⟨[1, -1, 1], 1⟩⟩], ⟨[0, -2, 1], 1⟩⟩ := by
    decide +kernel
  have hhalt : nextMove ⟨5, .dantzig, 0, 0, 1 / 8⟩ 3
      (⟨[⟨0, ⟨[1, -1, 1], 1⟩⟩], ⟨[0, -2, 1], 1⟩⟩ : Tableau ℚ) = .ok (.halt .unbounded) := by
    decide +kernel
  have hrun := iterate_of_halt (s := ⟨openDiagonal, 0⟩) (.single ⟨0, 0, hmove, hpivot⟩) hhalt
    (show 1 ≤ 5 by decide)
  obtain ⟨s', ending, hout, -, hproper', -, hascends, -, hray⟩ :=
    @primal_never_descends ℚ _ ⟨5, .dantzig, 0, 0, 1 / 8⟩ 3 rfl rfl ⟨openDiagonal, 0⟩ hproper
      (by decide)
  obtain ⟨rfl, rfl⟩ : s' = ⟨_, 0 + 1⟩ ∧ ending = .unbounded := by
    simpa using Except.ok.inj (hout.symm.trans hrun)
  obtain ⟨p, t', hp, hok, -, -, hlt⟩ := hascends 0 _ 0 0 (.refl _) hmove
  obtain rfl := Except.ok.inj (hok.symm.trans hpivot)
  obtain rfl : _ = p := Option.some.inj hp
  exact ⟨hproper, _, hout, rfl, hproper', hlt.2 zero_lt_one, hray rfl⟩

end Simplex

end BranchBound
