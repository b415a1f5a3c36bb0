import BranchBound.Proofs.Simplex.Bland
import BranchBound.Proofs.Simplex.TwoPhase

/-!
# When a solve needs no limit

A solve settles if every budget from some size on brings it to a verdict.  It does so exactly if the
run of each of its phases ends (`settles_iff`), and under the first-column rule that is so exactly
if in each run ties are broken against the lowest column only finitely often
(`anticycling_iff`).  The ratio test breaks ties for the first row, so not every run ends:
`cycling` is a bounded program on which the second phase goes round with period six
(`cycling_never_settles`).
-/

namespace BranchBound

variable {K : Type} [ExactScalar K]

namespace LinearProgram

/-- The same settings with another limit. -/
def Settings.withMaxPivots (s : Settings K) (m : ℕ) : Settings K := { s with maxPivots := m }

omit [ExactScalar K] in
@[simp] theorem Settings.maxPivots_withMaxPivots (s : Settings K) (m : ℕ) :
    (s.withMaxPivots m).maxPivots = m := rfl

theorem Settings.IsExact.withMaxPivots {s : Settings K} (hs : s.IsExact) (m : ℕ) :
    (s.withMaxPivots m).IsExact := ⟨hs.costTol_eq, hs.pivotTol_eq, hs.feasTol_eq⟩

/-- Every limit from some size on lets the solve reach a verdict. -/
def Settles (settings : Settings K) (p : LinearProgram K) : Prop :=
  ∃ N, ∀ m ≥ N, ∃ run solution, p.solve (settings.withMaxPivots m) = .ok run ∧
    run.outcome = .ok solution ∧ solution.status ≠ .pivotLimit

end LinearProgram

namespace Simplex

open Tableau LinearProgram

variable {settings : Settings K} {p : LinearProgram K} {t t' t₀ : Tableau K} {k m : ℕ}

/-- Steps do not depend on the limit. -/
theorem Steps.withMaxPivots {candidates : ℕ} (h : Steps settings candidates k t t') (m : ℕ) :
    Steps (settings.withMaxPivots m) candidates k t t' := by
  induction h with
  | refl t => exact .refl t
  | head first _ ih => exact .head first ih

omit [ExactScalar K] in
/-- Nor does the standard form. -/
@[simp] theorem standardForm_withMaxPivots [Scalar K] (settings : Settings K) (p : LinearProgram K)
    (m : ℕ) :
    standardForm (settings.withMaxPivots m) p = standardForm settings p := by
  have hrows : ∀ (n k a index artificial : ℕ) (cs : List (List K × K)),
      standardRows (settings.withMaxPivots m) n k a index artificial cs =
        standardRows settings n k a index artificial cs := by
    intro n k a index artificial cs
    induction cs generalizing index artificial with
    | nil => rfl
    | cons c cs ih =>
        rw [standardRows, standardRows, ih, ih]
        rfl
  rw [standardForm, hrows]
  rfl

/-- The tableau in which a phase of the solve starts, for the second phase with whatever limit the
first one gets there. -/
inductive PhaseStart (settings : Settings K) (p : LinearProgram K) : Tableau K → Prop where
  | one {t : Tableau K} (hart : (standardForm settings p).numArtificial ≠ 0)
      (hok : (standardForm settings p).tableau.setObjective
        (artificialCosts (standardForm settings p)) = .ok t) : PhaseStart settings p t
  | two {m pivots : ℕ} {t₀ t : Tableau K}
      (hphase : (phaseOne (settings.withMaxPivots m) (standardForm settings p)).outcome =
        .ok (.feasible t₀, pivots))
      (hok : t₀.setObjective (minimizationCosts p (p.numVars + p.numConstraints)) = .ok t) :
      PhaseStart settings p t

/-- No run ends for lack of budget. -/
theorem ending_ne_pivotLimit {candidates : ℕ} (hs : settings.IsExact) (ht : t.Canonical)
    (hcand : candidates ≤ t.numCols) {ending : Ending}
    (h : nextMove settings candidates t = .ok (.halt ending)) : ending ≠ .pivotLimit := by
  rintro rfl
  cases moveAt_of_nextMove hs ht hcand h

/-! ## The phases under a limit -/

/-- When its run ends at an optimum, the first phase goes on to remove the artificial columns,
whatever larger limit there is. -/
theorem phaseOne_of_halt (hart : (standardForm settings p).numArtificial ≠ 0)
    (hok : (standardForm settings p).tableau.setObjective
      (artificialCosts (standardForm settings p)) = .ok t)
    (hsteps : Steps settings (p.numVars + p.numConstraints) k t t')
    (hhalt : nextMove settings (p.numVars + p.numConstraints) t' = .ok (.halt .optimal))
    (hkm : k ≤ m) :
    (phaseOne (settings.withMaxPivots m) (standardForm settings p)).outcome =
      (dropArtificials settings (p.numVars + p.numConstraints) t').outcome.map
        fun r => (r, k) := by
  have hiter := iterate_of_halt (s := ⟨t, 0⟩) (hsteps.withMaxPivots m) hhalt hkm
  rw [Nat.zero_add] at hiter
  rw [← standardForm_withMaxPivots settings p m] at hart hok ⊢
  exact outcome_phaseOne hart hok hiter

/-- A first phase that finds a feasible basis finds it with every larger limit. -/
theorem phaseOne_stable (hp : p.Shaped) (hs : settings.IsExact) {pivots m₀ : ℕ}
    (h : (phaseOne (settings.withMaxPivots m₀) (standardForm settings p)).outcome =
      .ok (.feasible t₀, pivots)) (hm : pivots ≤ m) :
    (phaseOne (settings.withMaxPivots m) (standardForm settings p)).outcome =
      .ok (.feasible t₀, pivots) := by
  by_cases hart : (standardForm settings p).numArtificial = 0
  · rw [phaseOne, if_pos hart] at h ⊢
    exact h
  · obtain ⟨t₁, hok, -⟩ := setObjective_artificialCosts hp hs
    obtain ⟨s, ending, r, hphase, hend⟩ := phaseOne_spec hp (hs.withMaxPivots m₀)
      (by rwa [standardForm_withMaxPivots]) (by rwa [standardForm_withMaxPivots])
    rw [standardForm_withMaxPivots] at hphase
    obtain ⟨rfl, rfl⟩ : Feasibility.feasible t₀ = r ∧ pivots = s.pivots := by
      simpa using h.symm.trans hphase
    have hne : ending ≠ .pivotLimit := fun hlimit => by
      cases hend.pivotLimit_iff.2 hlimit
    have hhalt := hend.run.ends.resolve_right fun hlimit => hne hlimit.1
    have hopt : ending = .optimal := by
      cases ending with
      | optimal => rfl
      | unbounded => exact absurd rfl hend.ending_ne
      | pivotLimit => exact absurd rfl hne
    subst hopt
    have hsteps : Steps settings (p.numVars + p.numConstraints) s.pivots t₁ s.tableau :=
      hend.run.steps.withMaxPivots settings.maxPivots
    have hle : s.pivots ≤ m₀ := by simpa using hend.run.le_budget
    rw [phaseOne_of_halt hart hok hsteps hhalt hm, ← h,
      phaseOne_of_halt hart hok hsteps hhalt hle]

/-- Where each phase starts the tableau is proper and has the candidate columns. -/
theorem PhaseStart.proper (hp : p.Shaped) (hs : settings.IsExact) (h : PhaseStart settings p t) :
    t.Proper ∧ p.numVars + p.numConstraints ≤ t.numCols := by
  cases h with
  | one hart hok =>
      obtain ⟨t₁, hok₁, ht₁⟩ := setObjective_artificialCosts hp hs
      obtain rfl := Except.ok.inj (hok₁.symm.trans hok)
      exact ⟨ht₁.proper, ht₁.structural_le_numCols⟩
  | two hphase hok =>
      rename_i m pivots t₀
      obtain ⟨r, pivots', hphase', hholds, -⟩ := phaseOne_holds hp (hs.withMaxPivots m)
      rw [standardForm_withMaxPivots] at hphase'
      obtain ⟨rfl, -⟩ : Feasibility.feasible t₀ = r ∧ pivots = pivots' := by
        simpa using hphase.symm.trans hphase'
      obtain ⟨t₁, hok₁, ht₁⟩ := hholds.setObjective_minimizationCosts
      obtain rfl := Except.ok.inj (hok₁.symm.trans hok)
      exact ⟨ht₁.proper, ht₁.structural_le_numCols⟩

omit [ExactScalar K] in
/-- The result that belongs to an end has the pivots counted so far, and is another verdict than the
limit unless the end was the limit. -/
theorem exists_conclude [Scalar K] (p : LinearProgram K) (s : Stage K) (ending : Ending) :
    ∃ solution, (conclude p s ending).outcome = .ok solution ∧
      (solution.status = .pivotLimit ↔ ending = .pivotLimit) ∧ solution.pivots = s.pivots := by
  cases ending with
  | optimal => exact ⟨_, rfl, by simp [Solution.optimal], rfl⟩
  | unbounded => exact ⟨_, rfl, by simp [Solution.unbounded], rfl⟩
  | pivotLimit => exact ⟨_, rfl, by simp [Solution.pivotLimit], rfl⟩

/-- The solve with this limit reaches a verdict. -/
def Decides (settings : Settings K) (p : LinearProgram K) (m : ℕ) : Prop :=
  ∃ solution, (twoPhase (settings.withMaxPivots m) p).outcome = .ok solution ∧
    solution.status ≠ .pivotLimit

theorem settles_iff_decides (hcheck : p.check = .ok ()) :
    Settles settings p ↔ ∃ N, ∀ m ≥ N, Decides settings p m := by
  constructor
  · rintro ⟨N, hN⟩
    refine ⟨N, ?_⟩
    intro m hm
    obtain ⟨run, solution, hrun, hout, hne⟩ := hN m hm
    obtain rfl := Except.ok.inj ((solve_eq_ok hcheck _).symm.trans hrun)
    exact ⟨solution, hout, hne⟩
  · rintro ⟨N, hN⟩
    refine ⟨N, ?_⟩
    intro m hm
    obtain ⟨solution, hout, hne⟩ := hN m hm
    exact ⟨_, solution, solve_eq_ok hcheck _, hout, hne⟩

/-! ## Ends of both runs -/

section Ends

variable (hp : p.Shaped) (hs : settings.IsExact)
include hp hs

/-- A second phase whose run ends is brought to a verdict by every limit from some size on. -/
theorem exists_limit_of_phaseTwo {pivots : ℕ}
    (hphase : ∀ m ≥ pivots, (phaseOne (settings.withMaxPivots m)
      (standardForm settings p)).outcome = .ok (.feasible t₀, pivots))
    (h : ∀ t, PhaseStart settings p t → Halts settings (p.numVars + p.numConstraints) t) :
    ∃ N, ∀ m ≥ N, Decides settings p m := by
  obtain ⟨r, pivots', hphase', hholds, -⟩ := phaseOne_holds hp (hs.withMaxPivots pivots)
  rw [standardForm_withMaxPivots] at hphase'
  obtain ⟨rfl, -⟩ : Feasibility.feasible t₀ = r ∧ pivots = pivots' := by
    simpa using (hphase pivots le_rfl).symm.trans hphase'
  obtain ⟨t, hok, hpriced⟩ := hholds.setObjective_minimizationCosts
  obtain ⟨k, t', ending, hsteps, hhalt⟩ := h t (.two (hphase pivots le_rfl) hok)
  have hlast := hpriced.of_steps hs hsteps
  have hne : ending ≠ .pivotLimit :=
    ending_ne_pivotLimit hs hlast.proper.canonical hlast.structural_le_numCols hhalt
  refine ⟨pivots + k, ?_⟩
  intro m hm
  obtain ⟨solution, hconclude, hstatus, -⟩ := exists_conclude p ⟨t', pivots + k⟩ ending
  refine ⟨solution, ?_, fun hlimit => hne (hstatus.1 hlimit)⟩
  have hone := hphase m (by omega)
  rw [← standardForm_withMaxPivots settings p m] at hone
  rw [outcome_twoPhase hone]
  exact outcome_phaseTwo hok
    (iterate_of_halt (s := ⟨t, pivots⟩) (hsteps.withMaxPivots m) hhalt
      (show k ≤ m - pivots by omega)) hconclude

/-- A second phase whose run goes on uses up every limit. -/
theorem phaseTwo_of_not_halts {pivots : ℕ}
    (hphase : (phaseOne (settings.withMaxPivots m) (standardForm settings p)).outcome =
      .ok (.feasible t₀, pivots))
    (hok : t₀.setObjective (minimizationCosts p (p.numVars + p.numConstraints)) = .ok t)
    (h : ¬ Halts settings (p.numVars + p.numConstraints) t) :
    ∃ solution, (twoPhase (settings.withMaxPivots m) p).outcome = .ok solution ∧
      solution.status = .pivotLimit := by
  obtain ⟨hproper, hcand⟩ := PhaseStart.proper hp hs (.two hphase hok)
  obtain ⟨run, rfl, hrun⟩ := exists_endless_of_not_halts hs hproper hcand h
  have hsteps := hrun.steps 0 (m - pivots)
  rw [Nat.zero_add] at hsteps
  obtain ⟨solution, hconclude, hstatus, -⟩ :=
    exists_conclude p ⟨run (m - pivots), pivots + (m - pivots)⟩ .pivotLimit
  refine ⟨solution, ?_, hstatus.2 rfl⟩
  have hone := hphase
  rw [← standardForm_withMaxPivots settings p m] at hone
  rw [outcome_twoPhase hone]
  exact outcome_phaseTwo hok (iterate_of_steps (s := ⟨run 0, pivots⟩)
    (hsteps.withMaxPivots m) (hrun (m - pivots))) hconclude

/-- A first phase whose run goes on uses up every limit. -/
theorem phaseOne_of_not_halts (hart : (standardForm settings p).numArtificial ≠ 0)
    (hok : (standardForm settings p).tableau.setObjective
      (artificialCosts (standardForm settings p)) = .ok t)
    (h : ¬ Halts settings (p.numVars + p.numConstraints) t) :
    (twoPhase (settings.withMaxPivots m) p).outcome = .ok (.pivotLimit m) := by
  obtain ⟨hproper, hcand⟩ := PhaseStart.proper hp hs (.one hart hok)
  obtain ⟨run, rfl, hrun⟩ := exists_endless_of_not_halts hs hproper hcand h
  have hsteps := hrun.steps 0 m
  rw [Nat.zero_add] at hsteps
  have hiter := iterate_of_steps (s := ⟨run 0, 0⟩) (hsteps.withMaxPivots m) (hrun m)
  rw [Nat.zero_add] at hiter
  rw [← standardForm_withMaxPivots settings p m] at hart hok
  exact outcome_twoPhase (outcome_phaseOne hart hok hiter)

/-- A solve that settles has phases whose runs end. -/
theorem halts_of_decides {N : ℕ} (hN : ∀ m ≥ N, Decides settings p m)
    (h : PhaseStart settings p t) : Halts settings (p.numVars + p.numConstraints) t := by
  by_contra hno
  cases h with
  | one hart hok =>
      obtain ⟨solution, hout, hne⟩ := hN N le_rfl
      rw [phaseOne_of_not_halts hp hs hart hok hno] at hout
      obtain rfl := Except.ok.inj hout
      exact hne rfl
  | @two m pivots t₀ _ hphase hok =>
      have hlarge := phaseOne_stable hp hs hphase (le_max_right N pivots)
      obtain ⟨solution, hout, hlimit⟩ := phaseTwo_of_not_halts hp hs hlarge hok hno
      obtain ⟨solution', hout', hne⟩ := hN (max N pivots) (le_max_left _ _)
      obtain rfl := Except.ok.inj (hout.symm.trans hout')
      exact hne hlimit

/-- A solve whose phases have runs that end settles. -/
theorem exists_limit_of_halts
    (h : ∀ t, PhaseStart settings p t → Halts settings (p.numVars + p.numConstraints) t) :
    ∃ N, ∀ m ≥ N, Decides settings p m := by
  by_cases hart : (standardForm settings p).numArtificial = 0
  · have hphase : ∀ m ≥ 0, (phaseOne (settings.withMaxPivots m)
        (standardForm settings p)).outcome =
          .ok (.feasible (standardForm settings p).tableau, 0) := by
      intro m _
      have hart' : (standardForm (settings.withMaxPivots m) p).numArtificial = 0 := by
        rwa [standardForm_withMaxPivots]
      have := phaseOne_of_numArtificial_eq_zero hart'
      rwa [standardForm_withMaxPivots] at this
    exact exists_limit_of_phaseTwo hp hs hphase h
  · obtain ⟨t₁, hok, ht₁⟩ := setObjective_artificialCosts hp hs
    obtain ⟨k, t', ending, hsteps, hhalt⟩ := h t₁ (.one hart hok)
    have ht' := ht₁.of_steps hs hsteps
    have hmove := moveAt_of_nextMove hs ht'.proper.canonical ht'.structural_le_numCols hhalt
    cases hmove with
    | unbounded hent hrows => exact absurd hrows (ht'.not_unbounded hent.cost_neg)
    | optimal hopt =>
        obtain ⟨r, hdrop, -, hne⟩ := dropArtificials_spec hp hs ht' hopt
        have hphase : ∀ m ≥ k, (phaseOne (settings.withMaxPivots m)
            (standardForm settings p)).outcome = .ok (r, k) := by
          intro m hm
          rw [phaseOne_of_halt hart hok hsteps hhalt hm, hdrop]
          rfl
        cases r with
        | feasible t₀ => exact exists_limit_of_phaseTwo hp hs hphase h
        | infeasible =>
            refine ⟨k, fun m hm => ⟨.infeasible k, ?_, by simp [Solution.infeasible]⟩⟩
            have := hphase m hm
            rw [← standardForm_withMaxPivots settings p m] at this
            exact outcome_twoPhase this
        | pivotLimit => exact absurd rfl hne

omit hp in
/-- **A solve settles exactly if the runs of its phases end.** -/
theorem settles_iff (hcheck : p.check = .ok ()) :
    Settles settings p ↔
      ∀ t, PhaseStart settings p t → Halts settings (p.numVars + p.numConstraints) t := by
  have hp := p.check_eq_ok_iff.1 hcheck
  rw [settles_iff_decides hcheck]
  constructor
  · rintro ⟨N, hN⟩ t ht
    exact halts_of_decides hp hs hN ht
  · exact exists_limit_of_halts hp hs

end Ends

/-- **Exactly when the first-column rule does not cycle.**  No phase comes back to a basis, and from
some limit on the solve always reaches a verdict, exactly if in each phase ties of the ratio test
are broken against the lowest basic column only finitely often. -/
theorem anticycling_iff (hcheck : p.check = .ok ()) (hs : settings.IsExact)
    (hrule : settings.pivotRule = .firstProfitable) :
    ((∀ t, PhaseStart settings p t → ¬ Revisits settings (p.numVars + p.numConstraints) t) ∧
        Settles settings p) ↔
      ∀ t, PhaseStart settings p t → ∃ n, ∀ k t', n ≤ k →
        Steps settings (p.numVars + p.numConstraints) k t t' →
          ¬ BreaksTie settings (p.numVars + p.numConstraints) t' := by
  have hp := p.check_eq_ok_iff.1 hcheck
  have hrevisit : ∀ t, PhaseStart settings p t →
      (Halts settings (p.numVars + p.numConstraints) t ↔
        ¬ Revisits settings (p.numVars + p.numConstraints) t) := fun t ht =>
    halts_iff_not_revisits hs (ht.proper hp hs).1 (ht.proper hp hs).2
  have hties : ∀ t, PhaseStart settings p t →
      (Halts settings (p.numVars + p.numConstraints) t ↔ ∃ n, ∀ k t', n ≤ k →
        Steps settings (p.numVars + p.numConstraints) k t t' →
          ¬ BreaksTie settings (p.numVars + p.numConstraints) t') := fun t ht =>
    halts_iff_breaksTie_finite hs (ht.proper hp hs).1 (ht.proper hp hs).2 hrule
  rw [settles_iff hs hcheck]
  constructor
  · rintro ⟨-, h⟩ t ht
    exact (hties t ht).1 (h t ht)
  · intro h
    exact ⟨fun t ht => (hrevisit t ht).1 ((hties t ht).2 (h t ht)),
      fun t ht => (hties t ht).2 (h t ht)⟩

/-! ## A program that cycles -/

/-- The tableau so many pivots on, if there are so many. -/
def advance (settings : Settings K) (candidates : ℕ) : ℕ → Tableau K → Option (Tableau K)
  | 0, t => some t
  | k + 1, t =>
    match nextMove settings candidates t with
    | .ok (.pivot row col) =>
      match t.pivot row col with
      | .ok t' => advance settings candidates k t'
      | .error _ => none
    | _ => none

theorem steps_of_advance {candidates : ℕ} (h : advance settings candidates k t = some t') :
    Steps settings candidates k t t' := by
  induction k generalizing t with
  | zero =>
      obtain rfl := Option.some.inj h
      exact .refl t
  | succ k ih =>
      unfold advance at h
      split at h
      · rename_i row col hmove
        split at h
        · rename_i t₁ hpivot
          exact .head ⟨row, col, hmove, hpivot⟩ (ih h)
        · cases h
      · cases h

/-- Maximize `x₁ + 2 x₂ - 2 x₃ - 2 x₄` under three constraints that all hold with equality at the
origin, and `x₁ + x₂ + x₃ + x₄ ≤ 3`.  The optimum is `2`, at `(0, 2, 1, 0)`. -/
def cycling : LinearProgram ℚ where
  objective := [1, 2, -2, -2]
  rows := [[-1, 0, -1, 2], [-2, 0, -1, 1], [1, 1, -2, 1], [1, 1, 1, 1]]
  limits := [0, 0, 0, 3]
  sense := .maximize

/-- The tableau in which its second phase starts. -/
def cyclingStart : Tableau ℚ where
  rows := [⟨4, ⟨[-1, 0, -1, 2, 1, 0, 0, 0], 0⟩⟩, ⟨5, ⟨[-2, 0, -1, 1, 0, 1, 0, 0], 0⟩⟩,
    ⟨6, ⟨[1, 1, -2, 1, 0, 0, 1, 0], 0⟩⟩, ⟨7, ⟨[1, 1, 1, 1, 0, 0, 0, 1], 3⟩⟩]
  objective := ⟨[-1, -2, 2, 2, 0, 0, 0, 0], 0⟩

/-- No constraint is negated, so its first phase has nothing to do. -/
theorem phaseOne_cycling (m : ℕ) :
    (phaseOne ((Settings.exact .firstProfitable 0).withMaxPivots m)
      (standardForm (Settings.exact .firstProfitable 0) cycling)).outcome =
        .ok (.feasible (standardForm (Settings.exact .firstProfitable 0) cycling).tableau, 0) := by
  have hart : (standardForm (Settings.exact .firstProfitable 0) cycling).numArtificial = 0 := by
    decide +kernel
  rw [phaseOne, if_pos hart]
  rfl

theorem setObjective_cycling :
    (standardForm (Settings.exact .firstProfitable 0) cycling).tableau.setObjective
      (minimizationCosts cycling 8) = .ok cyclingStart := by
  decide +kernel

/-- After one pivot the run goes round with period six. -/
theorem revisits_cyclingStart : Revisits (Settings.exact .firstProfitable 0) 8 cyclingStart := by
  obtain ⟨t, ht⟩ : ∃ t, advance (Settings.exact .firstProfitable 0) 8 1 cyclingStart = some t :=
    Option.isSome_iff_exists.1 (by decide +kernel)
  have hround : (advance (Settings.exact .firstProfitable 0) 8 1 cyclingStart).bind
      (advance (Settings.exact .firstProfitable 0) 8 6) =
        advance (Settings.exact .firstProfitable 0) 8 1 cyclingStart := by
    decide +kernel
  rw [ht] at hround
  exact ⟨1, 5, t, t, steps_of_advance ht, steps_of_advance hround, rfl⟩

/-- Somewhere on every stretch of its run the program breaks a tie against the lowest column. -/
theorem cycling_breaks_ties :
    cycling.check = .ok () ∧ (Settings.exact .firstProfitable 0 : Settings ℚ).IsExact ∧
    ∃ t, PhaseStart (Settings.exact .firstProfitable 0) cycling t ∧ ∀ n, ∃ k t', n ≤ k ∧
      Steps (Settings.exact .firstProfitable 0) (cycling.numVars + cycling.numConstraints) k t t' ∧
        BreaksTie (Settings.exact .firstProfitable 0)
          (cycling.numVars + cycling.numConstraints) t' := by
  have hs : (Settings.exact .firstProfitable 0 : Settings ℚ).IsExact :=
    Settings.isExact_exact .firstProfitable 0
  refine ⟨rfl, hs, ?_⟩
  by_contra hno
  push Not at hno
  have h := (anticycling_iff (p := cycling) rfl hs rfl).2 fun t ht => by
    obtain ⟨n, hn⟩ := hno t ht
    exact ⟨n, fun k t' hk hsteps => hn k t' hk hsteps⟩
  exact h.1 cyclingStart (.two (phaseOne_cycling 0) setObjective_cycling) revisits_cyclingStart

/-- **The first-column rule can cycle.**  On this program the second phase comes back to a basis,
and with every limit the solve ends without a verdict. -/
theorem cycling_never_settles :
    cycling.check = .ok () ∧
    (∃ t, PhaseStart (Settings.exact .firstProfitable 0) cycling t ∧
      Revisits (Settings.exact .firstProfitable 0) (cycling.numVars + cycling.numConstraints) t) ∧
    ∀ m, ∃ run solution,
      cycling.solve ((Settings.exact .firstProfitable 0).withMaxPivots m) = .ok run ∧
        run.outcome = .ok solution ∧ solution.status = .pivotLimit := by
  have hcheck : cycling.check = .ok () := rfl
  have hp := cycling.check_eq_ok_iff.1 hcheck
  have hs : (Settings.exact .firstProfitable 0 : Settings ℚ).IsExact :=
    Settings.isExact_exact .firstProfitable 0
  have hstart : PhaseStart (Settings.exact .firstProfitable 0) cycling cyclingStart :=
    .two (phaseOne_cycling 0) setObjective_cycling
  refine ⟨hcheck, ⟨cyclingStart, hstart, revisits_cyclingStart⟩, ?_⟩
  intro m
  have hno : ¬ Halts (Settings.exact .firstProfitable 0) 8 cyclingStart := fun hhalts =>
    (halts_iff_not_revisits hs (hstart.proper hp hs).1 (hstart.proper hp hs).2).1 hhalts
      revisits_cyclingStart
  obtain ⟨solution, hout, hlimit⟩ :=
    phaseTwo_of_not_halts hp hs (phaseOne_cycling m) setObjective_cycling hno
  exact ⟨_, solution, solve_eq_ok hcheck _, hout, hlimit⟩

end Simplex

end BranchBound
