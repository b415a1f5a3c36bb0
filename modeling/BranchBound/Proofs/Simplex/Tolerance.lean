import BranchBound.Proofs.Simplex.Cycling
import BranchBound.Proofs.Simplex.LastTableau

/-!
# How far tolerances let an optimal point stray

An optimal point strays as far as a right-hand side of the last tableau has sunk below zero.  A
pivot at a ratio that is not negative, and least among all positive entries of the column, lets none
sink (`upholds_pivoted`), and exchanging artificial columns of value zero moves none.  So an optimal
point keeps within the tolerance if that is all that happens, and it is feasible if besides no limit
is negative within the tolerance (`optimal_withinTolerance`).  The conditions on the pivots of a
solve are checked by following it (`AllPivots.of_checkRun`).

Each of the conditions can fail.  The row of a limit that is negative within the tolerance leaves at
a negative ratio (`slightLimit`), an artificial column that is positive within the tolerance is
exchanged on a small entry (`slightArtificial`), and the ratio test passes over an entry within the
tolerance whose row is exhausted first (`slightEntry`).  In all three the point strays beyond the
tolerance (`standard_strays`).
-/

namespace BranchBound

variable {K : Type} [ExactScalar K]

namespace Simplex

open Tableau LinearProgram

variable {settings : Settings K} {p : LinearProgram K} {t t' t₀ : Tableau K} {candidates k : ℕ}

/-! ## What keeps right-hand sides up -/

/-- The leaving row has the least ratio of all rows with a positive entry in the column, also of
those whose entry is too small to pivot on. -/
def LeavesFirst (t : Tableau K) (col : ℕ) (r : TableauRow K) : Prop :=
  ∀ s ∈ t.rows, 0 < s.line.coef col → r.ratio col ≤ s.ratio col

/-- The leaving row has a right-hand side that is not negative. -/
def LeavesNonneg (_ : Tableau K) (_ : ℕ) (r : TableauRow K) : Prop := 0 ≤ r.line.rhs

/-- A condition on the entering column and the leaving row holds at every pivot of a run. -/
def EachPivot (settings : Settings K) (candidates : ℕ) (t₀ : Tableau K)
    (condition : Tableau K → ℕ → TableauRow K → Prop) : Prop :=
  ∀ k t row col r, Steps settings candidates k t₀ t →
    nextMove settings candidates t = .ok (.pivot row col) → t.rows[row]? = some r →
      condition t col r

/-- Every right-hand side of `t'` is nonnegative, or at least that of the row of `t` with the same
basic column. -/
def Upholds (t t' : Tableau K) : Prop :=
  ∀ r' ∈ t'.rows, 0 ≤ r'.line.rhs ∨
    ∃ r ∈ t.rows, r.basic = r'.basic ∧ r.line.rhs ≤ r'.line.rhs

namespace Upholds

protected theorem refl (t : Tableau K) : Upholds t t := fun r' hr' => .inr ⟨r', hr', rfl, le_rfl⟩

protected theorem trans {t'' : Tableau K} (h : Upholds t t') (h' : Upholds t' t'') :
    Upholds t t'' := by
  intro r'' hr''
  obtain hnonneg | ⟨r', hr', hbasic', hle'⟩ := h' r'' hr''
  · exact .inl hnonneg
  · obtain hnonneg | ⟨r, hr, hbasic, hle⟩ := h r' hr'
    · exact .inl (hnonneg.trans hle')
    · exact .inr ⟨r, hr, hbasic.trans hbasic', hle.trans hle'⟩

/-- A bound that is not positive is kept. -/
theorem bound_le (h : Upholds t t') {b : K} (hb : b ≤ 0) (hrhs : ∀ r ∈ t.rows, b ≤ r.line.rhs) :
    ∀ r' ∈ t'.rows, b ≤ r'.line.rhs := by
  intro r' hr'
  obtain hnonneg | ⟨r, hr, -, hle⟩ := h r' hr'
  · exact hb.trans hnonneg
  · exact (hrhs r hr).trans hle

/-- Rows with certain basic columns stay nonnegative. -/
theorem nonneg_of_basic (h : Upholds t t') {n : ℕ}
    (hrhs : ∀ r ∈ t.rows, n ≤ r.basic → 0 ≤ r.line.rhs) :
    ∀ r' ∈ t'.rows, n ≤ r'.basic → 0 ≤ r'.line.rhs := by
  intro r' hr' hbasic
  obtain hnonneg | ⟨r, hr, hsame, hle⟩ := h r' hr'
  · exact hnonneg
  · exact (hrhs r hr (hsame ▸ hbasic)).trans hle

end Upholds

/-- **A pivot on a positive entry at a ratio that is not negative and least lets no right-hand side
sink below zero and below what it was.** -/
theorem upholds_pivoted {row col : ℕ} {r : TableauRow K} (hr : t.rows[row]? = some r)
    (hentry : 0 < r.line.coef col) (hnonneg : 0 ≤ r.line.rhs) (hfirst : LeavesFirst t col r) :
    Upholds t (t.pivoted row col r) := by
  have hratio : 0 ≤ r.ratio col := div_nonneg hnonneg hentry.le
  intro s' hs'
  obtain ⟨i, hi⟩ := List.mem_iff_getElem?.1 hs'
  obtain ⟨-, rfl⟩ | ⟨-, s, hs, rfl⟩ := rows_pivoted_cases hr hi
  · exact .inl hratio
  · have hmem := List.mem_of_getElem? hs
    have hrhs : (s.line.minus (s.line.coef col) (r.line.divideBy (r.line.coef col))).rhs =
        s.line.rhs - s.line.coef col * r.ratio col := rfl
    rcases le_or_gt (s.line.coef col) 0 with hle | hgt
    · -- the row gains
      refine .inr ⟨s, hmem, rfl, ?_⟩
      rw [hrhs]
      linarith [mul_nonpos_of_nonpos_of_nonneg hle hratio]
    · -- the row is not exhausted before the leaving one
      have hleast := hfirst s hmem hgt
      rw [show s.ratio col = s.line.rhs / s.line.coef col from rfl, le_div_iff₀ hgt] at hleast
      refine .inl ?_
      rw [hrhs]
      linarith

/-! ## Runs -/

namespace EachPivot

variable {condition : Tableau K → ℕ → TableauRow K → Prop}

theorem tail (h : EachPivot settings candidates t condition)
    (first : Step settings candidates t t') : EachPivot settings candidates t' condition :=
  fun _ _ _ _ _ hsteps hmove hr => h _ _ _ _ _ (.head first hsteps) hmove hr

end EachPivot

/-- **A run with such pivots lets no right-hand side sink.**  If no right-hand side is negative at
the start, no leaving row has a negative one. -/
theorem Steps.upholds (htol : 0 ≤ settings.pivotTol) (hsteps : Steps settings candidates k t t')
    (hc : t.Canonical) (hcand : candidates ≤ t.numCols)
    (hfirst : EachPivot settings candidates t LeavesFirst) {b : K} (hb : b ≤ 0)
    (hleaves : b = 0 ∨ EachPivot settings candidates t LeavesNonneg)
    (hrhs : ∀ r ∈ t.rows, b ≤ r.line.rhs) : Upholds t t' := by
  induction hsteps with
  | refl t => exact .refl t
  | head first _ ih =>
      obtain ⟨row, col, r, hmove, hent, hleave, rfl⟩ := (step_iff_pivoted htol hc hcand).1 first
      have hnonneg : 0 ≤ r.line.rhs := by
        obtain rfl | hleaves := hleaves
        · exact hrhs r (List.mem_of_getElem? hleave.get)
        · exact hleaves _ _ row col r (.refl _) hmove hleave.get
      have hupholds := upholds_pivoted hleave.get (htol.trans_lt hleave.lt_entry) hnonneg
        (hfirst _ _ row col r (.refl _) hmove hleave.get)
      have hequiv := first.equivalent htol hc hcand
      exact hupholds.trans (ih (first.canonical htol hc hcand) (hequiv.numCols_eq ▸ hcand)
        (hfirst.tail first) (hleaves.imp_right fun h => h.tail first)
        (hupholds.bound_le hb hrhs))

/-! ## Phases -/

/-- The tableau in which a phase of the solve starts. -/
inductive Begins (settings : Settings K) (p : LinearProgram K) : Tableau K → Prop where
  /-- With the sum of the artificial columns as objective. -/
  | one {t : Tableau K} (hart : (standardForm settings p).numArtificial ≠ 0)
      (hok : (standardForm settings p).tableau.setObjective
        (artificialCosts (standardForm settings p)) = .ok t) : Begins settings p t
  /-- With the program's own objective, on what the first phase hands on. -/
  | two {pivots : ℕ} {t₀ t : Tableau K}
      (hphase : (phaseOne settings (standardForm settings p)).outcome =
        .ok (.feasible t₀, pivots))
      (hok : t₀.setObjective (minimizationCosts p (p.numVars + p.numConstraints)) = .ok t) :
      Begins settings p t

/-- A condition on the entering column and the leaving row holds at every counted pivot of the
solve. -/
def AllPivots (settings : Settings K) (p : LinearProgram K)
    (condition : Tableau K → ℕ → TableauRow K → Prop) : Prop :=
  ∀ t₀, Begins settings p t₀ →
    EachPivot settings (p.numVars + p.numConstraints) t₀ condition

/-- Where the first phase has work to do, it brings the sum of the artificial columns to zero. -/
def ArtificialVanishes (settings : Settings K) (p : LinearProgram K) : Prop :=
  ∀ k t₀ t, (standardForm settings p).numArtificial ≠ 0 →
    (standardForm settings p).tableau.setObjective
      (artificialCosts (standardForm settings p)) = .ok t₀ →
    Steps settings (p.numVars + p.numConstraints) k t₀ t →
    nextMove settings (p.numVars + p.numConstraints) t = .ok (.halt .optimal) → t.constant = 0

section Bound

variable (hp : p.Shaped) (htol : 0 ≤ settings.pivotTol) (hfeas : 0 ≤ settings.feasTol)
  (hfirst : AllPivots settings p LeavesFirst) (hart : ArtificialVanishes settings p) {b : K}
  (hb : b ≤ 0) (hleaves : b = 0 ∨ AllPivots settings p LeavesNonneg)
  (hrhs : ∀ r ∈ (standardForm settings p).tableau.rows, b ≤ r.line.rhs)
include hp htol hfirst hb hleaves hrhs

include hfeas hart in
/-- **The first phase keeps a bound on the right-hand sides.** -/
theorem Reaches.bound_le (h : Reaches settings p t) : ∀ r ∈ t.rows, b ≤ r.line.rhs := by
  cases h with
  | direct _ => exact hrhs
  | @exchanged _ t₀ t₁ _ hne hok hsteps hhalt hinherits =>
      obtain ⟨t', hok', ht₀, hrows, hcount⟩ := exists_setObjective_artificialCosts settings hp
      obtain rfl := Except.ok.inj (hok'.symm.trans hok)
      have hbegins : Begins settings p t' := .one hne hok
      have hupholds : Upholds t' t₁ := hsteps.upholds htol ht₀.canonical
        ht₀.structural_le_numCols (hfirst _ hbegins) hb
        (hleaves.imp_right fun h => h _ hbegins) (hrows ▸ hrhs)
      obtain ⟨hc, hequiv⟩ :=
        hsteps.canonical_equivalent htol ht₀.canonical ht₀.structural_le_numCols
      -- an artificial column starts above zero and does not sink below
      have hnonneg : ∀ r ∈ t₁.rows, p.numVars + p.numConstraints ≤ r.basic → 0 ≤ r.line.rhs := by
        refine hupholds.nonneg_of_basic fun r hr hge => ?_
        obtain hle | ⟨hlt, -⟩ := standardForm_rhs_cases hp hfeas (hrows ▸ hr)
        · exact hle
        · exact absurd hge (not_le.2 hlt)
      have hzero : -t₁.constant ≤ 0 := by
        rw [hart _ _ _ hne hok hsteps hhalt, neg_zero]
      have hstay := hinherits fun r hr =>
        DescribesStandard.rhs_eq_zero (ht₀.of_equivalent hc hequiv)
          (hcount.of_equivalent hequiv) hnonneg hzero hr
      intro r hr
      obtain heq | ⟨s, hs, heq⟩ := hstay r hr
      · exact heq ▸ hb
      · exact heq ▸ hupholds.bound_le hb (hrows ▸ hrhs) s hs

include hfeas hart in
/-- **The solve keeps a bound on the right-hand sides.** -/
theorem EndsAt.bound_le (hlt : settings.pivotTol < 1) (h : EndsAt settings p t) :
    ∀ r ∈ t.rows, b ≤ r.line.rhs := by
  obtain ⟨hphase, hok, hsteps, -⟩ := h
  obtain ⟨hbasis, hreaches⟩ := phaseOne_slackBasis hp htol hlt hphase
  have hstart := hreaches.bound_le hp htol hfeas hfirst hart hb hleaves hrhs
  have hbegins := Begins.two hphase hok
  obtain ⟨t', hok', ht', hrows, -⟩ := hbasis.setObjective (length_minimizationCosts p)
  obtain rfl := Except.ok.inj (hok'.symm.trans hok)
  exact (hsteps.upholds htol ht'.canonical ht'.numCols_eq.ge (hfirst _ hbegins) hb
    (hleaves.imp_right fun h => h _ hbegins) (hrows ▸ hstart)).bound_le hb (hrows ▸ hstart)

end Bound

/-- **How far an optimal point strays.**  It is the point of a tableau for the slack equations, and
it keeps within the tolerance exactly if no right-hand side of that tableau falls below it.  This is
so if every counted pivot has the least ratio of all positive entries, and not a negative one, and
the artificial columns vanish.  If besides no limit is negative within the tolerance, the point is
feasible. -/
theorem optimal_withinTolerance (hp : p.Shaped) (htol : 0 ≤ settings.pivotTol)
    (hlt : settings.pivotTol < 1) (hfeas : 0 ≤ settings.feasTol) {solution : Solution K}
    (h : (twoPhase settings p).outcome = .ok solution) (hopt : solution.status = .optimal) :
    (∃ t, EndsAt settings p t ∧ SlackBasis p t ∧ solution.x = t.primalValues p.numVars ∧
      (p.WithinTolerance settings.feasTol solution.x ↔
        ∀ r ∈ t.rows, -settings.feasTol ≤ r.line.rhs)) ∧
    (AllPivots settings p LeavesFirst → ArtificialVanishes settings p →
      (AllPivots settings p LeavesNonneg → p.WithinTolerance settings.feasTol solution.x) ∧
      ((∀ limit ∈ p.limits, limit < 0 → limit < -settings.feasTol) →
        p.Feasible solution.x)) := by
  obtain ⟨t, hends, hx⟩ := twoPhase_optimal hp htol hlt h hopt
  have hbasis := hends.slackBasis hp htol hlt
  have hiff := hbasis.withinTolerance_primalValues_iff hp hfeas
  rw [← hx] at hiff
  refine ⟨⟨t, hends, hbasis, hx, hiff⟩, fun hfirst hart => ⟨fun hleaves => ?_, fun hlimits => ?_⟩⟩
  · refine hiff.2 (hends.bound_le hp htol hfeas hfirst hart (neg_nonpos.2 hfeas) (.inr hleaves)
      (fun r hr => ?_) hlt)
    obtain hle | ⟨-, -, hge, -⟩ := standardForm_rhs_cases hp hfeas hr
    · exact (neg_nonpos.2 hfeas).trans hle
    · exact hge
  · rw [hx]
    refine hbasis.feasible_primalValues hp (hends.bound_le hp htol hfeas hfirst hart le_rfl
      (.inl rfl) (fun r hr => ?_) hlt)
    obtain hle | ⟨-, hmem, hge, hneg⟩ := standardForm_rhs_cases hp hfeas hr
    · exact hle
    · exact absurd (hlimits _ hmem hneg) (not_lt.2 hge)

/-! ## Following a solve -/

instance (t : Tableau K) (col : ℕ) (r : TableauRow K) : Decidable (LeavesFirst t col r) :=
  inferInstanceAs (Decidable (∀ s ∈ t.rows, 0 < s.line.coef col → r.ratio col ≤ s.ratio col))

instance (t : Tableau K) (col : ℕ) (r : TableauRow K) : Decidable (LeavesNonneg t col r) :=
  inferInstanceAs (Decidable (0 ≤ r.line.rhs))

/-- Follow a run and check every tableau on the way.  A run of `fuel` pivots or more fails. -/
def checkRun (settings : Settings K) (candidates : ℕ) (check : Tableau K → Bool) :
    ℕ → Tableau K → Bool
  | 0, _ => false
  | fuel + 1, t =>
    check t && match nextMove settings candidates t with
      | .ok (.pivot row col) =>
        (t.pivot row col).toOption.all (checkRun settings candidates check fuel)
      | _ => true

/-- **What is checked on the way of a run holds on the way.** -/
theorem Steps.check_of_checkRun (hsteps : Steps settings candidates k t t')
    {check : Tableau K → Bool} {fuel : ℕ}
    (h : checkRun settings candidates check fuel t = true) : check t' = true := by
  induction hsteps generalizing fuel with
  | refl t =>
      cases fuel with
      | zero => cases h
      | succ fuel => exact (Bool.and_eq_true_iff.1 h).1
  | head first _ ih =>
      obtain ⟨row, col, hmove, hpivot⟩ := first
      cases fuel with
      | zero => cases h
      | succ fuel =>
          have hrest := (Bool.and_eq_true_iff.1 h).2
          simp only [hmove, hpivot] at hrest
          exact ih hrest

section Conditions

variable (condition : Tableau K → ℕ → TableauRow K → Prop)
  [∀ t col r, Decidable (condition t col r)]

/-- Check a condition on the pivot that comes next, if there is one. -/
def checkPivot (settings : Settings K) (candidates : ℕ) (t : Tableau K) : Bool :=
  match nextMove settings candidates t with
  | .ok (.pivot row col) => t.rows[row]?.all fun r => decide (condition t col r)
  | _ => true

variable {condition}

theorem EachPivot.of_checkRun {fuel : ℕ}
    (h : checkRun settings candidates (checkPivot condition settings candidates) fuel t = true) :
    EachPivot settings candidates t condition := by
  intro k t' row col r hsteps hmove hr
  have hcheck := hsteps.check_of_checkRun h
  simp only [checkPivot, hmove, hr] at hcheck
  exact of_decide_eq_true hcheck

end Conditions

/-- The tableau in which the first phase starts, if it has work to do. -/
def startOne? (settings : Settings K) (p : LinearProgram K) : Option (Tableau K) :=
  if (standardForm settings p).numArtificial = 0 then none
  else ((standardForm settings p).tableau.setObjective
    (artificialCosts (standardForm settings p))).toOption

/-- The tableau in which the second phase starts, if the first one finds a basis. -/
def startTwo? (settings : Settings K) (p : LinearProgram K) : Option (Tableau K) :=
  match (phaseOne settings (standardForm settings p)).outcome with
  | .ok (.feasible t, _) =>
    (t.setObjective (minimizationCosts p (p.numVars + p.numConstraints))).toOption
  | _ => none

theorem startOne?_eq_some (hart : (standardForm settings p).numArtificial ≠ 0)
    (hok : (standardForm settings p).tableau.setObjective
      (artificialCosts (standardForm settings p)) = .ok t) : startOne? settings p = some t := by
  rw [startOne?, if_neg hart, hok]
  rfl

theorem startTwo?_eq_some {pivots : ℕ}
    (hphase : (phaseOne settings (standardForm settings p)).outcome = .ok (.feasible t₀, pivots))
    (hok : t₀.setObjective (minimizationCosts p (p.numVars + p.numConstraints)) = .ok t) :
    startTwo? settings p = some t := by
  rw [startTwo?, hphase]
  show (t₀.setObjective _).toOption = some t
  rw [hok]
  rfl

/-- **A condition on the pivots of a solve can be checked** by following both phases. -/
theorem AllPivots.of_checkRun (fuel : ℕ) {condition : Tableau K → ℕ → TableauRow K → Prop}
    [∀ t col r, Decidable (condition t col r)]
    (hone : (startOne? settings p).all (checkRun settings (p.numVars + p.numConstraints)
      (checkPivot condition settings (p.numVars + p.numConstraints)) fuel) = true)
    (htwo : (startTwo? settings p).all (checkRun settings (p.numVars + p.numConstraints)
      (checkPivot condition settings (p.numVars + p.numConstraints)) fuel) = true) :
    AllPivots settings p condition := by
  intro t hbegins
  cases hbegins with
  | one hart hok =>
      rw [startOne?_eq_some hart hok] at hone
      exact .of_checkRun hone
  | two hphase hok =>
      rw [startTwo?_eq_some hphase hok] at htwo
      exact .of_checkRun htwo

/-- That the artificial columns vanish can be checked by following the first phase. -/
theorem ArtificialVanishes.of_checkRun (fuel : ℕ)
    (h : (startOne? settings p).all (checkRun settings (p.numVars + p.numConstraints)
      (fun t => decide (nextMove settings (p.numVars + p.numConstraints) t = .ok (.halt .optimal) →
        t.constant = 0)) fuel) = true) : ArtificialVanishes settings p := by
  intro k t₀ t hart hok hsteps hhalt
  rw [startOne?_eq_some hart hok] at h
  exact of_decide_eq_true (hsteps.check_of_checkRun h) hhalt

/-! ## The standard tolerances -/

end Simplex

namespace LinearProgram

open Simplex

/-- The standard tolerances, with any rule and any limit. -/
def Settings.standardWith (rule : PivotRule) (maxPivots : ℕ) : Settings ℚ :=
  { Settings.standard with pivotRule := rule, maxPivots := maxPivots }

/-- **How far an optimal point strays under the standard tolerances.**  It is the point of a tableau
for the slack equations, and it keeps within the tolerance exactly if no right-hand side of that
tableau falls below it.  This is so if every counted pivot has the least ratio of all positive
entries, and not a negative one, and the artificial columns vanish.  If besides no limit is negative
within the tolerance, the point is feasible. -/
theorem solve_withinTolerance {p : LinearProgram ℚ} {rule : PivotRule} {maxPivots : ℕ}
    {run : Run ℚ (Solution ℚ)} {solution : Solution ℚ}
    (hrun : p.solve (.standardWith rule maxPivots) = .ok run) (hout : run.outcome = .ok solution)
    (hopt : solution.status = .optimal) :
    (∃ t, EndsAt (.standardWith rule maxPivots) p t ∧ SlackBasis p t ∧
      solution.x = t.primalValues p.numVars ∧
      (p.WithinTolerance 1e-9 solution.x ↔ ∀ r ∈ t.rows, -1e-9 ≤ r.line.rhs)) ∧
    (AllPivots (.standardWith rule maxPivots) p LeavesFirst →
      ArtificialVanishes (.standardWith rule maxPivots) p →
      (AllPivots (.standardWith rule maxPivots) p LeavesNonneg →
        p.WithinTolerance 1e-9 solution.x) ∧
      ((∀ limit ∈ p.limits, limit < 0 → limit < -1e-9) → p.Feasible solution.x)) := by
  obtain ⟨hcheck, rfl⟩ := check_of_solve_eq_ok hrun
  have htol : 0 ≤ (Settings.standardWith rule maxPivots).pivotTol := by
    show (0 : ℚ) ≤ (Settings.standard : Settings ℚ).pivotTol
    decide +kernel
  have hlt : (Settings.standardWith rule maxPivots).pivotTol < 1 := by
    show (Settings.standard : Settings ℚ).pivotTol < 1
    decide +kernel
  have hfeas : 0 ≤ (Settings.standardWith rule maxPivots).feasTol := by
    show (0 : ℚ) ≤ (Settings.standard : Settings ℚ).feasTol
    decide +kernel
  exact optimal_withinTolerance (p.check_eq_ok_iff.1 hcheck) htol hlt hfeas hout hopt

/-- Maximize `x - y` under `x ≥ 1`, `x + y ≤ 2`, `x ≤ 3`, `1e-11 x ≤ 1` and `y ≥ e`.  In both phases
several rows compete, one of them with an entry too small to pivot on.  A small `e` is within the
tolerance, and `y` stays at zero. -/
def contested (e : ℚ) : LinearProgram ℚ where
  objective := [1, -1]
  rows := [[-1, 0], [1, 1], [1, 0], [1e-11, 0], [0, -1]]
  limits := [-1, 2, 3, 1, -e]
  sense := .maximize

/-- The course of its solve, with `e` within the tolerance and with none. -/
theorem contested_course {e : ℚ} (he : e = 5e-10 ∨ e = 0) :
    (∃ run, (contested e).solve (.standardWith .dantzig 100) = .ok run ∧
      run.outcome = .ok (.optimal [2, 0] 2 2)) ∧
    AllPivots (.standardWith .dantzig 100) (contested e) LeavesFirst ∧
    ArtificialVanishes (.standardWith .dantzig 100) (contested e) ∧
    AllPivots (.standardWith .dantzig 100) (contested e) LeavesNonneg := by
  rcases he with rfl | rfl
  all_goals
    refine ⟨⟨_, rfl, ?_⟩, .of_checkRun 2 ?_ ?_, .of_checkRun 2 ?_, .of_checkRun 2 ?_ ?_⟩
    all_goals decide +kernel

/-- With a limit that is negative within the tolerance the optimal point is not feasible, but keeps
within the tolerance.  Without it the point is feasible. -/
theorem contested_solve_withinTolerance :
    (∃ run, (contested 5e-10).solve (.standardWith .dantzig 100) = .ok run ∧
      run.outcome = .ok (.optimal [2, 0] 2 2) ∧
      AllPivots (.standardWith .dantzig 100) (contested 5e-10) LeavesFirst ∧
      ArtificialVanishes (.standardWith .dantzig 100) (contested 5e-10) ∧
      AllPivots (.standardWith .dantzig 100) (contested 5e-10) LeavesNonneg ∧
      (contested 5e-10).WithinTolerance 1e-9 [2, 0] ∧ ¬ (contested 5e-10).Feasible [2, 0]) ∧
    ∃ run, (contested 0).solve (.standardWith .dantzig 100) = .ok run ∧
      run.outcome = .ok (.optimal [2, 0] 2 2) ∧
      (∀ limit ∈ (contested 0).limits, limit < 0 → limit < -1e-9) ∧
      (contested 0).Feasible [2, 0] := by
  refine ⟨?_, ?_⟩
  · obtain ⟨⟨run, hrun, hout⟩, hfirst, hart, hleaves⟩ := contested_course (.inl rfl)
    obtain ⟨-, hbounds⟩ := solve_withinTolerance hrun hout rfl
    have hmissed : ¬ Scalar.dot [0, -1] [2, 0] ≤ (-5e-10 : ℚ) := by decide +kernel
    exact ⟨run, hrun, hout, hfirst, hart, hleaves, (hbounds hfirst hart).1 hleaves,
      fun h => hmissed (h.le_limit ([0, -1], -5e-10) (by decide +kernel))⟩
  · obtain ⟨⟨run, hrun, hout⟩, hfirst, hart, -⟩ := contested_course (.inr rfl)
    have hlimits : ∀ limit ∈ (contested 0).limits, limit < 0 → limit < -1e-9 := by
      decide +kernel
    obtain ⟨-, hbounds⟩ := solve_withinTolerance hrun hout rfl
    exact ⟨run, hrun, hout, hlimits, (hbounds hfirst hart).2 hlimits⟩

/-! ## Straying points -/

/-- Under the standard tolerances an optimal point of the program does not keep within the
tolerance. -/
def Strays (p : LinearProgram ℚ) : Prop :=
  ∃ rule maxPivots run solution, p.solve (.standardWith rule maxPivots) = .ok run ∧
    run.outcome = .ok solution ∧ solution.status = .optimal ∧
      ¬ p.WithinTolerance 1e-9 solution.x

/-- Maximize `x - 2000 y` under `x / 1000 - y ≤ -5e-10`.  The limit is negative within the
tolerance, and `x` enters at the ratio `-5e-7`. -/
def slightLimit : LinearProgram ℚ where
  objective := [1, -2000]
  rows := [[1 / 1000, -1]]
  limits := [-5e-10]
  sense := .maximize

/-- Maximize `x` under `-x + y / 1000 ≤ -1` and `x ≤ 1 - 5e-10`.  The artificial column keeps the
value `5e-10`, and it is exchanged for `y` on the entry `-1 / 1000`. -/
def slightArtificial : LinearProgram ℚ where
  objective := [1, 0]
  rows := [[-1, 1 / 1000], [1, 0]]
  limits := [-1, 1 - 5e-10]
  sense := .maximize

/-- Maximize `x` under `1e-11 x ≤ 0` and `x ≤ 1000000`.  The first row is passed over. -/
def slightEntry : LinearProgram ℚ where
  objective := [1]
  rows := [[1e-11], [1]]
  limits := [0, 1000000]
  sense := .maximize

theorem strays_of_outcome {p : LinearProgram ℚ} {x : List ℚ} {value : ℚ} {pivots : ℕ}
    (hcheck : p.check = .ok ())
    (hout : (twoPhase (.standardWith .dantzig 100) p).outcome = .ok (.optimal x value pivots))
    (hx : (∃ v ∈ x, v < -1e-9) ∨ 1e-9 < p.maxViolation x) : p.Strays := by
  refine ⟨.dantzig, 100, _, _, solve_eq_ok hcheck _, hout, rfl, ?_⟩
  rintro ⟨hvars, hviolation⟩
  obtain ⟨v, hv, hlt⟩ | hlt := hx
  · exact absurd hlt (not_lt.2 (hvars v hv))
  · exact absurd hlt (not_lt.2 hviolation)

/-- **Optimal points can stray beyond the tolerance**: for a limit that is negative within the
tolerance, for an artificial column that is positive within it, and for an entry that is too small
to pivot on. -/
theorem standard_strays : slightLimit.Strays ∧ slightArtificial.Strays ∧ slightEntry.Strays := by
  refine ⟨?_, ?_, ?_⟩
  · have hout : (twoPhase (.standardWith .dantzig 100) slightLimit).outcome =
        .ok (.optimal [-5e-7, 0] (-5e-7) 1) := by
      decide +kernel
    exact strays_of_outcome rfl hout (by decide +kernel)
  · have hout : (twoPhase (.standardWith .dantzig 100) slightArtificial).outcome =
        .ok (.optimal [1 - 5e-10, -5e-7] (1 - 5e-10) 1) := by
      decide +kernel
    exact strays_of_outcome rfl hout (by decide +kernel)
  · have hout : (twoPhase (.standardWith .dantzig 100) slightEntry).outcome =
        .ok (.optimal [1000000] 1000000 1) := by
      decide +kernel
    exact strays_of_outcome rfl hout (by decide +kernel)

end LinearProgram

end BranchBound
