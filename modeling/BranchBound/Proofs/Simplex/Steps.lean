import BranchBound.Proofs.Simplex.Selection
import BranchBound.Proofs.Tableau.Points
import BranchBound.Simplex.Primal

/-!
# Steps of the primal iteration

A step of the iteration takes a canonical tableau to an equivalent canonical one, whatever the
tolerances are, as long as the one for pivots is not negative (`Step.canonical`, `Step.equivalent`).
With zero tolerances it also keeps the tableau proper, that is without negative right-hand sides
(`Step.proper`).  A run is a chain of steps (`Steps`) that ends where there is no next step or where
the budget does (`iterate_runTo`).
-/

namespace BranchBound

variable {K : Type} [ExactScalar K]

/-- All tolerances are zero. -/
structure LinearProgram.Settings.IsExact (s : LinearProgram.Settings K) : Prop where
  costTol_eq : s.costTol = 0
  pivotTol_eq : s.pivotTol = 0
  feasTol_eq : s.feasTol = 0

/-- Settings with tolerances of zero. -/
def LinearProgram.Settings.exact (rule : PivotRule) (maxPivots : ℕ) : LinearProgram.Settings K :=
  ⟨maxPivots, rule, 0, 0, 0⟩

theorem LinearProgram.Settings.isExact_exact (rule : PivotRule) (maxPivots : ℕ) :
    (LinearProgram.Settings.exact rule maxPivots : LinearProgram.Settings K).IsExact :=
  ⟨rfl, rfl, rfl⟩

namespace Tableau

/-- A canonical tableau whose basic point has no negative coordinate. -/
structure Proper (t : Tableau K) : Prop where
  canonical : t.Canonical
  rhsNonneg : t.RhsNonneg

/-- With a positive pivot entry of least ratio no right-hand side becomes negative. -/
theorem Proper.pivoted {t : Tableau K} (ht : t.Proper) {row col : ℕ} {p : TableauRow K}
    (hcol : col < t.numCols) (hp : t.Leaving 0 row col p) : (t.pivoted row col p).Proper where
  canonical := canonical_pivoted ht.canonical hp.get hcol hp.lt_entry.ne'
  rhsNonneg r' hr' := by
    have hprhs := ht.rhsNonneg p (List.mem_of_getElem? hp.get)
    obtain ⟨i, hi⟩ := List.mem_iff_getElem?.1 hr'
    obtain ⟨-, rfl⟩ | ⟨-, r, hr, rfl⟩ := rows_pivoted_cases hp.get hi
    · exact div_nonneg hprhs hp.lt_entry.le
    · have hrmem := List.mem_of_getElem? hr
      have hrhs := ht.rhsNonneg r hrmem
      have hratio : 0 ≤ p.ratio col := div_nonneg hprhs hp.lt_entry.le
      show 0 ≤ r.line.rhs - r.line.coef col * p.ratio col
      rcases le_or_gt (r.line.coef col) 0 with hle | hgt
      · have := mul_nonpos_of_nonpos_of_nonneg hle hratio
        linarith
      · have := hp.least r hrmem hgt
        rw [TableauRow.ratio, TableauRow.ratio, le_div_iff₀ hgt] at this
        unfold TableauRow.ratio
        linarith

/-- The constant of the objective grows by the entering column's gain times the ratio. -/
theorem constant_pivoted (t : Tableau K) (row col : ℕ) (p : TableauRow K) :
    (t.pivoted row col p).constant = t.constant - t.objective.coef col * p.ratio col := rfl

/-- With a negative reduced cost the constant does not fall, and it grows exactly if the leaving row
has a positive right-hand side. -/
theorem Leaving.constant_pivoted {t : Tableau K} {row col : ℕ} {p : TableauRow K}
    (hp : t.Leaving 0 row col p) (hrhs : t.RhsNonneg) (hcost : t.objective.coef col < 0) :
    t.constant ≤ (t.pivoted row col p).constant ∧
      (t.constant < (t.pivoted row col p).constant ↔ 0 < p.line.rhs) := by
  have hnonneg := hrhs p (List.mem_of_getElem? hp.get)
  have hratio : 0 ≤ p.ratio col := div_nonneg hnonneg hp.lt_entry.le
  rw [Tableau.constant_pivoted]
  constructor
  · have := mul_nonpos_of_nonpos_of_nonneg hcost.le hratio
    linarith
  · have hgain : t.objective.coef col * p.ratio col < 0 ↔ 0 < p.ratio col :=
      smul_neg_iff_of_neg_left hcost
    rw [lt_sub_iff_add_lt, add_lt_iff_neg_left, hgain]
    exact div_pos_iff_of_pos_right hp.lt_entry

end Tableau

namespace Simplex

open Tableau

variable {settings : LinearProgram.Settings K} {candidates : ℕ} {t t' : Tableau K}

/-- One pivot of the iteration. -/
def Step (settings : LinearProgram.Settings K) (candidates : ℕ) (t t' : Tableau K) : Prop :=
  ∃ row col, nextMove settings candidates t = .ok (.pivot row col) ∧ t.pivot row col = .ok t'

/-- A chain of so many pivots of the iteration. -/
inductive Steps (settings : LinearProgram.Settings K) (candidates : ℕ) :
    ℕ → Tableau K → Tableau K → Prop where
  | refl (t : Tableau K) : Steps settings candidates 0 t t
  | head {k : ℕ} {t t' t'' : Tableau K} (first : Step settings candidates t t')
      (rest : Steps settings candidates k t' t'') : Steps settings candidates (k + 1) t t''

/-! ## The next move -/

/-- What the next move says about the tableau within the tolerances. -/
inductive MoveWithin (settings : LinearProgram.Settings K) (candidates : ℕ) (t : Tableau K) :
    Move → Prop where
  /-- No candidate improves the objective by more than the tolerance. -/
  | optimal (h : ∀ j < candidates, -settings.costTol ≤ t.objective.coef j) :
      MoveWithin settings candidates t (.halt .optimal)
  /-- A candidate improves the objective, and no entry above the tolerance limits it. -/
  | unbounded {col : ℕ}
      (entering : t.Entering settings.pivotRule candidates settings.costTol col)
      (h : ∀ r ∈ t.rows, r.line.coef col ≤ settings.pivotTol) :
      MoveWithin settings candidates t (.halt .unbounded)
  /-- A candidate improves the objective, and of the rows with an entry above the tolerance one
  limits it first. -/
  | pivot {row col : ℕ} {p : TableauRow K}
      (entering : t.Entering settings.pivotRule candidates settings.costTol col)
      (leaving : t.Leaving settings.pivotTol row col p) :
      MoveWithin settings candidates t (.pivot row col)

/-- **A canonical tableau has a next move, and it is what it says.** -/
theorem exists_moveWithin (settings : LinearProgram.Settings K) (hc : t.Canonical)
    (hcand : candidates ≤ t.numCols) :
    ∃ move, nextMove settings candidates t = .ok move ∧ MoveWithin settings candidates t move := by
  rw [nextMove]
  obtain ⟨hok, hnone⟩ | ⟨col, hok, hent⟩ :=
    selectEntering_spec t settings.pivotRule settings.costTol hcand
  · refine ⟨.halt .optimal, by rw [hok]; rfl, .optimal hnone⟩
  · have hcol := hent.lt_limit.trans_le hcand
    obtain ⟨hok', hnone⟩ | ⟨row, p, hok', hleave⟩ :=
      selectLeaving_spec hc hcol settings.pivotTol
    · refine ⟨.halt .unbounded, ?_, .unbounded hent hnone⟩
      rw [hok]
      show (t.selectLeaving col settings.pivotTol >>= _) = _
      rw [hok']
      rfl
    · refine ⟨.pivot row col, ?_, .pivot hent hleave⟩
      rw [hok]
      show (t.selectLeaving col settings.pivotTol >>= _) = _
      rw [hok']
      rfl

/-- The next move of a canonical tableau within the tolerances. -/
theorem moveWithin_of_nextMove (hc : t.Canonical) (hcand : candidates ≤ t.numCols) {move : Move}
    (h : nextMove settings candidates t = .ok move) : MoveWithin settings candidates t move := by
  obtain ⟨move', hok, hmove⟩ := exists_moveWithin settings hc hcand
  obtain rfl := Except.ok.inj (hok.symm.trans h)
  exact hmove

/-- What the next move says about the tableau without tolerances. -/
inductive MoveAt (settings : LinearProgram.Settings K) (candidates : ℕ) (t : Tableau K) :
    Move → Prop where
  /-- No candidate improves the objective. -/
  | optimal (h : ∀ j < candidates, 0 ≤ t.objective.coef j) :
      MoveAt settings candidates t (.halt .optimal)
  /-- A candidate improves the objective, and no entry limits it. -/
  | unbounded {col : ℕ} (entering : t.Entering settings.pivotRule candidates 0 col)
      (h : ∀ r ∈ t.rows, r.line.coef col ≤ 0) : MoveAt settings candidates t (.halt .unbounded)
  /-- A candidate improves the objective, and a row limits it first. -/
  | pivot {row col : ℕ} {p : TableauRow K}
      (entering : t.Entering settings.pivotRule candidates 0 col)
      (leaving : t.Leaving 0 row col p) : MoveAt settings candidates t (.pivot row col)

/-- Tolerances of zero drop out. -/
theorem MoveWithin.moveAt (hs : settings.IsExact) {move : Move}
    (h : MoveWithin settings candidates t move) : MoveAt settings candidates t move := by
  cases h with
  | optimal h => exact .optimal (by simpa [hs.costTol_eq] using h)
  | unbounded entering h =>
      rw [hs.costTol_eq] at entering
      exact .unbounded entering (by simpa [hs.pivotTol_eq] using h)
  | pivot entering leaving =>
      rw [hs.costTol_eq] at entering
      rw [hs.pivotTol_eq] at leaving
      exact .pivot entering leaving

/-- A canonical tableau has a next move without tolerances. -/
theorem nextMove_spec (hs : settings.IsExact) (hc : t.Canonical) (hcand : candidates ≤ t.numCols) :
    ∃ move, nextMove settings candidates t = .ok move ∧ MoveAt settings candidates t move := by
  obtain ⟨move, hok, hmove⟩ := exists_moveWithin settings hc hcand
  exact ⟨move, hok, hmove.moveAt hs⟩

/-- The next move of a canonical tableau without tolerances. -/
theorem moveAt_of_nextMove (hs : settings.IsExact) (hc : t.Canonical)
    (hcand : candidates ≤ t.numCols) {move : Move}
    (h : nextMove settings candidates t = .ok move) : MoveAt settings candidates t move :=
  (moveWithin_of_nextMove hc hcand h).moveAt hs

/-! ## One step -/

/-- What a step does: it pivots in an improving column on an entry above the tolerance, of least
ratio among these. -/
theorem step_iff_pivoted (htol : 0 ≤ settings.pivotTol) (hc : t.Canonical)
    (hcand : candidates ≤ t.numCols) :
    Step settings candidates t t' ↔
      ∃ row col p, nextMove settings candidates t = .ok (.pivot row col) ∧
        t.Entering settings.pivotRule candidates settings.costTol col ∧
        t.Leaving settings.pivotTol row col p ∧ t' = t.pivoted row col p := by
  constructor
  · rintro ⟨row, col, hmove, hpivot⟩
    obtain _ | _ | ⟨hent, hleave⟩ := moveWithin_of_nextMove hc hcand hmove
    refine ⟨row, col, _, hmove, hent, hleave, ?_⟩
    rw [pivot_eq hc hleave.get (hent.lt_limit.trans_le hcand)
      (htol.trans_lt hleave.lt_entry).ne'] at hpivot
    exact (Except.ok.inj hpivot).symm
  · rintro ⟨row, col, p, hmove, hent, hleave, rfl⟩
    exact ⟨row, col, hmove, pivot_eq hc hleave.get (hent.lt_limit.trans_le hcand)
      (htol.trans_lt hleave.lt_entry).ne'⟩

/-- What a step does without tolerances: it pivots on a positive entry of least ratio in an
improving column. -/
theorem step_iff (hs : settings.IsExact) (hc : t.Canonical) (hcand : candidates ≤ t.numCols) :
    Step settings candidates t t' ↔
      ∃ row col p, nextMove settings candidates t = .ok (.pivot row col) ∧
        t.Entering settings.pivotRule candidates 0 col ∧ t.Leaving 0 row col p ∧
        t' = t.pivoted row col p := by
  rw [step_iff_pivoted hs.pivotTol_eq.ge hc hcand, hs.costTol_eq, hs.pivotTol_eq]

namespace Step

section Tolerant

variable (htol : 0 ≤ settings.pivotTol) (hc : t.Canonical) (hcand : candidates ≤ t.numCols)
  (h : Step settings candidates t t')
include htol hc hcand h

/-- A step keeps a tableau canonical. -/
theorem canonical : t'.Canonical := by
  obtain ⟨row, col, p, -, hent, hleave, rfl⟩ := (step_iff_pivoted htol hc hcand).1 h
  exact canonical_pivoted hc hleave.get (hent.lt_limit.trans_le hcand)
    (htol.trans_lt hleave.lt_entry).ne'

/-- **A step changes neither solutions nor their costs.** -/
theorem equivalent : t.Equivalent t' := by
  obtain ⟨row, col, p, -, -, hleave, rfl⟩ := (step_iff_pivoted htol hc hcand).1 h
  exact equivalent_pivoted hc hleave.get (htol.trans_lt hleave.lt_entry).ne'

end Tolerant

variable (hs : settings.IsExact) (ht : t.Proper) (hcand : candidates ≤ t.numCols)
  (h : Step settings candidates t t')
include hs ht hcand h

/-- **A step keeps the basic point without negative coordinates.** -/
theorem proper : t'.Proper := by
  obtain ⟨row, col, p, -, hent, hleave, rfl⟩ := (step_iff hs ht.canonical hcand).1 h
  exact ht.pivoted (hent.lt_limit.trans_le hcand) hleave

/-- **A step never worsens the objective.** -/
theorem constant_le : t.constant ≤ t'.constant := by
  obtain ⟨row, col, p, -, hent, hleave, rfl⟩ := (step_iff hs ht.canonical hcand).1 h
  exact (hleave.constant_pivoted ht.rhsNonneg hent.cost_neg).1

end Step

/-! ## Chains of steps -/

namespace Steps

variable {k : ℕ}

/-- **What one step preserves, a run preserves.** -/
theorem canonical_equivalent (htol : 0 ≤ settings.pivotTol) (h : Steps settings candidates k t t')
    (hc : t.Canonical) (hcand : candidates ≤ t.numCols) : t'.Canonical ∧ t.Equivalent t' := by
  induction h with
  | refl t => exact ⟨hc, .refl t⟩
  | head first _ ih =>
      have hequiv := first.equivalent htol hc hcand
      obtain ⟨hc', hequiv'⟩ := ih (first.canonical htol hc hcand) (hequiv.numCols_eq ▸ hcand)
      exact ⟨hc', hequiv.trans hequiv'⟩

/-- A run of proper tableaus without tolerances. -/
theorem proper_equivalent (hs : settings.IsExact) (h : Steps settings candidates k t t')
    (ht : t.Proper) (hcand : candidates ≤ t.numCols) : t'.Proper ∧ t.Equivalent t' := by
  induction h with
  | refl t => exact ⟨ht, .refl t⟩
  | head first _ ih =>
      have hequiv := first.equivalent hs.pivotTol_eq.ge ht.canonical hcand
      obtain ⟨hproper, hequiv'⟩ := ih (first.proper hs ht hcand) (hequiv.numCols_eq ▸ hcand)
      exact ⟨hproper, hequiv.trans hequiv'⟩

theorem trans {t'' : Tableau K} {l : ℕ} (h : Steps settings candidates k t t')
    (h' : Steps settings candidates l t' t'') : Steps settings candidates (k + l) t t'' := by
  induction h with
  | refl t => rwa [zero_add]
  | head first _ ih =>
      rw [Nat.add_right_comm]
      exact .head first (ih h')

end Steps

/-! ## The iteration -/

/-- How a run of the iteration ends: without a next step, or with its budget used up. -/
structure RunTo (settings : LinearProgram.Settings K) (candidates budget : ℕ) (s s' : Stage K)
    (ending : Ending) : Prop where
  steps : Steps settings candidates (s'.pivots - s.pivots) s.tableau s'.tableau
  pivots_le : s.pivots ≤ s'.pivots
  le_budget : s'.pivots ≤ s.pivots + budget
  ends : nextMove settings candidates s'.tableau = .ok (.halt ending) ∨
    (ending = .pivotLimit ∧ s'.pivots = s.pivots + budget)

omit [ExactScalar K] in
/-- A counted pivot is a pivot and one more on the count. -/
theorem countedPivot_outcome [Scalar K] {s : Stage K} {row col : ℕ}
    (hpivot : s.tableau.pivot row col = .ok t) :
    (countedPivot s row col).outcome = .ok ⟨t, s.pivots + 1⟩ := by
  cases hrow : s.tableau.rows[row]? with
  | none =>
      rw [pivot, hrow] at hpivot
      cases hpivot
  | some p =>
      rw [countedPivot, getElem?_basis, hrow, hpivot]
      rfl

omit [ExactScalar K] in
/-- A pivot of the iteration spends one of the budget. -/
theorem iterate_pivot [Scalar K] {s : Stage K} {row col : ℕ} (budget : ℕ)
    (hmove : nextMove settings candidates s.tableau = .ok (.pivot row col))
    (hpivot : s.tableau.pivot row col = .ok t) :
    (iterate settings candidates (budget + 1) s).outcome =
      (iterate settings candidates budget ⟨t, s.pivots + 1⟩).outcome := by
  rw [iterate, hmove]
  show (countedPivot s row col >>= _).outcome = _
  rw [Recorded.outcome_bind, countedPivot_outcome hpivot]
  rfl

/-- One step of the iteration with budget left. -/
theorem iterate_succ {s : Stage K} (budget : ℕ) (h : Step settings candidates s.tableau t) :
    (iterate settings candidates (budget + 1) s).outcome =
      (iterate settings candidates budget ⟨t, s.pivots + 1⟩).outcome := by
  obtain ⟨row, col, hmove, hpivot⟩ := h
  exact iterate_pivot budget hmove hpivot

omit [ExactScalar K] in
/-- Where there is no next step the iteration stops, whatever the budget. -/
theorem iterate_halt [Scalar K] {s : Stage K} {ending : Ending} (budget : ℕ)
    (h : nextMove settings candidates s.tableau = .ok (.halt ending)) :
    (iterate settings candidates budget s).outcome = .ok (s, ending) := by
  rw [iterate.eq_def]
  simp only [h]
  rfl

namespace RunTo

variable {budget : ℕ} {s s' : Stage K} {ending : Ending}

/-- A run ends where there is no next step. -/
theorem halt (budget : ℕ) (h : nextMove settings candidates s.tableau = .ok (.halt ending)) :
    RunTo settings candidates budget s s ending where
  steps := by
    rw [Nat.sub_self]
    exact .refl _
  pivots_le := le_rfl
  le_budget := Nat.le_add_right _ _
  ends := .inl h

/-- A run ends where there is no budget. -/
theorem limit (settings : LinearProgram.Settings K) (candidates : ℕ) (s : Stage K) :
    RunTo settings candidates 0 s s .pivotLimit where
  steps := by
    rw [Nat.sub_self]
    exact .refl _
  pivots_le := le_rfl
  le_budget := le_rfl
  ends := .inr ⟨rfl, rfl⟩

/-- A step spends one of the budget. -/
theorem step (hstep : Step settings candidates s.tableau t)
    (h : RunTo settings candidates budget ⟨t, s.pivots + 1⟩ s' ending) :
    RunTo settings candidates (budget + 1) s s' ending := by
  have hle : s.pivots + 1 ≤ s'.pivots := h.pivots_le
  have hbudget : s'.pivots ≤ s.pivots + 1 + budget := h.le_budget
  refine ⟨?_, by omega, by omega, h.ends.imp_right fun hlimit => ⟨hlimit.1, ?_⟩⟩
  · rw [show s'.pivots - s.pivots = s'.pivots - (s.pivots + 1) + 1 by omega]
    exact .head hstep h.steps
  · have hpivots : s'.pivots = s.pivots + 1 + budget := hlimit.2
    omega

end RunTo

/-- **The iteration is a chain of steps, and it always ends.** -/
theorem iterate_runTo (htol : 0 ≤ settings.pivotTol) (budget : ℕ) {s : Stage K}
    (hc : s.tableau.Canonical) (hcand : candidates ≤ s.tableau.numCols) :
    ∃ s' ending, (iterate settings candidates budget s).outcome = .ok (s', ending) ∧
      RunTo settings candidates budget s s' ending := by
  induction budget generalizing s with
  | zero =>
      obtain ⟨move, hok, -⟩ := exists_moveWithin settings hc hcand
      cases move with
      | halt ending => exact ⟨s, ending, iterate_halt 0 hok, .halt 0 hok⟩
      | pivot row col =>
          refine ⟨s, .pivotLimit, ?_, .limit settings candidates s⟩
          rw [iterate, hok]
          rfl
  | succ budget ih =>
      obtain ⟨move, hok, hmove⟩ := exists_moveWithin settings hc hcand
      cases hmove with
      | optimal => exact ⟨s, .optimal, iterate_halt _ hok, .halt _ hok⟩
      | unbounded => exact ⟨s, .unbounded, iterate_halt _ hok, .halt _ hok⟩
      | pivot hent hleave =>
          have hstep : Step settings candidates s.tableau _ :=
            (step_iff_pivoted htol hc hcand).2 ⟨_, _, _, hok, hent, hleave, rfl⟩
          have hequiv := hstep.equivalent htol hc hcand
          obtain ⟨s', ending, hout, hrun⟩ := ih (s := ⟨_, s.pivots + 1⟩)
            (hstep.canonical htol hc hcand) (hequiv.numCols_eq ▸ hcand)
          exact ⟨s', ending, (iterate_succ budget hstep).trans hout, hrun.step hstep⟩

/-! ## What a phase keeps -/

/-- A canonical tableau with `n` columns whose solutions are the given ones. -/
structure Describes (n : ℕ) (solves : (ℕ → K) → Prop) (t : Tableau K) : Prop where
  canonical : t.Canonical
  numCols_eq : t.numCols = n
  solves_iff : ∀ z, t.Solves z ↔ solves z

namespace Describes

variable {n : ℕ} {solves : (ℕ → K) → Prop}

theorem of_equivalent (h : Describes n solves t) (hc' : t'.Canonical) (hequiv : t.Equivalent t') :
    Describes n solves t' where
  canonical := hc'
  numCols_eq := hequiv.numCols_eq.trans h.numCols_eq
  solves_iff z := (hequiv.solves_iff z).trans (h.solves_iff z)

/-- **A run keeps what its tableau describes**, whatever the tolerances are. -/
theorem of_steps (h : Describes n solves t) (htol : 0 ≤ settings.pivotTol) (hcand : candidates ≤ n)
    {k : ℕ} (hsteps : Steps settings candidates k t t') : Describes n solves t' := by
  obtain ⟨hc', hequiv⟩ := hsteps.canonical_equivalent htol h.canonical (h.numCols_eq ▸ hcand)
  exact h.of_equivalent hc' hequiv

end Describes

/-- A proper tableau with `n` columns whose solutions and their costs are the given ones. -/
structure Represents (n : ℕ) (solves : (ℕ → K) → Prop) (cost : (ℕ → K) → K) (t : Tableau K) :
    Prop where
  proper : t.Proper
  numCols_eq : t.numCols = n
  solves_iff : ∀ z, t.Solves z ↔ solves z
  costAt_eq : ∀ z, t.Solves z → t.costAt z = cost z

namespace Represents

variable {n : ℕ} {solves : (ℕ → K) → Prop} {cost : (ℕ → K) → K}

theorem describes (h : Represents n solves cost t) : Describes n solves t :=
  ⟨h.proper.canonical, h.numCols_eq, h.solves_iff⟩

theorem of_equivalent (h : Represents n solves cost t) (ht' : t'.Proper)
    (hequiv : t.Equivalent t') : Represents n solves cost t' where
  proper := ht'
  numCols_eq := hequiv.numCols_eq.trans h.numCols_eq
  solves_iff z := (hequiv.solves_iff z).trans (h.solves_iff z)
  costAt_eq z hz := by
    have hz' := (hequiv.solves_iff z).1 hz
    rw [hequiv.costAt_eq z hz', h.costAt_eq z hz']

/-- **A run keeps what its tableau represents.** -/
theorem of_steps (h : Represents n solves cost t) (hs : settings.IsExact) (hcand : candidates ≤ n)
    {k : ℕ} (hsteps : Steps settings candidates k t t') : Represents n solves cost t' := by
  obtain ⟨hproper, hequiv⟩ := hsteps.proper_equivalent hs h.proper (h.numCols_eq ▸ hcand)
  exact h.of_equivalent hproper hequiv

end Represents

end Simplex

end BranchBound
