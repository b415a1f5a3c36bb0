import BranchBound.Proofs.Simplex.Course
import BranchBound.Proofs.Simplex.Termination

/-!
# Solves without a limit

The limit on the pivots cuts a solve short and does nothing else.  `Unlimited` follows a solve that
is never cut short: the tableaus that its two phases iterate over, each with the pivots counted
before it.  It does not look at the limit, and it leaves out that pivots are also made, uncounted,
between the phases.

* `Unlimited.outcome`: a solve with a limit goes the same way as long as there are pivots left, and
  what it still has to do at a tableau is `resume`.
* `Unlimited.pivotsAfter_or_settlesAfter`: at each tableau either a pivot is next, or the solve has
  its verdict, the same under every limit that lets it come so far.
* `LinearProgram.solve_limit`: so two limits give the same result unless the smaller one is hit, and
  it is hit exactly if the solve without a limit makes more pivots.

Nothing is assumed of the scalars but that the tolerance for pivots keeps zero out.
-/

namespace BranchBound

variable {K : Type} [Scalar K]

namespace Simplex

open Tableau LinearProgram

variable {settings : Settings K} {p : LinearProgram K} {t t' t₁ : Tableau K} {k m n : ℕ}

/-- The iterations of a solve. -/
inductive Phase where
  /-- The artificial columns are minimized. -/
  | one
  /-- The objective is minimized. -/
  | two

/-- Where a solve is during a phase. -/
def Phase.place : Phase → Place
  | .one => .minimizing
  | .two => .optimizing

/-- The tableaus that a solve without a limit iterates over, by phase and with the pivots counted so
far. -/
inductive Unlimited (settings : Settings K) (p : LinearProgram K) :
    Phase → ℕ → Tableau K → Prop where
  | artificial {t : Tableau K} (hart : (standardForm settings p).numArtificial ≠ 0)
      (hok : (standardForm settings p).tableau.setObjective
        (artificialCosts (standardForm settings p)) = .ok t) : Unlimited settings p .one 0 t
  /-- No constraint is negated. -/
  | direct {t : Tableau K} (hart : (standardForm settings p).numArtificial = 0)
      (hok : (standardForm settings p).tableau.setObjective
        (minimizationCosts p (p.numVars + p.numConstraints)) = .ok t) :
      Unlimited settings p .two 0 t
  | pivot {phase : Phase} {n : ℕ} {t t' : Tableau K} {row col : ℕ}
      (h : Unlimited settings p phase n t)
      (hmove : nextMove settings (p.numVars + p.numConstraints) t = .ok (.pivot row col))
      (hok : t.pivot row col = .ok t') : Unlimited settings p phase (n + 1) t'
  /-- The first phase finds a feasible basis. -/
  | feasible {n : ℕ} {t t₁ t' : Tableau K} (h : Unlimited settings p .one n t)
      (hhalt : nextMove settings (p.numVars + p.numConstraints) t = .ok (.halt .optimal))
      (hdrop : (dropArtificials settings (p.numVars + p.numConstraints) t).outcome =
        .ok (.feasible t₁))
      (hok : t₁.setObjective (minimizationCosts p (p.numVars + p.numConstraints)) = .ok t') :
      Unlimited settings p .two n t'

/-- What follows the iteration of a phase. -/
def finish (settings : Settings K) (p : LinearProgram K) :
    Phase → Stage K → Ending → Run K (Solution K)
  | .one, s, .optimal => do
    match ← dropArtificials settings (p.numVars + p.numConstraints) s.tableau with
    | .feasible t => phaseTwo settings p (p.numVars + p.numConstraints) t s.pivots
    | .infeasible => return .infeasible s.pivots
    | .pivotLimit => return .pivotLimit s.pivots
  | .one, s, .unbounded => return .infeasible s.pivots
  | .one, s, .pivotLimit => return .pivotLimit s.pivots
  | .two, s, ending => conclude p s ending

/-- What is left of a solve in a phase, with `budget` pivots to go. -/
def resume (settings : Settings K) (p : LinearProgram K) (phase : Phase) (budget : ℕ)
    (s : Stage K) : Run K (Solution K) := do
  let (s, ending) ← iterate settings (p.numVars + p.numConstraints) budget s
  finish settings p phase s ending

/-! ## A limit cuts short -/

/-- The next move does not depend on the limit. -/
theorem nextMove_withMaxPivots (settings : Settings K) (m candidates : ℕ) (t : Tableau K) :
    nextMove (settings.withMaxPivots m) candidates t = nextMove settings candidates t := rfl

theorem nextMove_ne_pivotLimit {candidates : ℕ} :
    nextMove settings candidates t ≠ .ok (.halt .pivotLimit) := by
  intro h
  obtain hhalt | hhalt | ⟨row, col, hmove, -⟩ := nextMove_eq_ok h
  · cases hhalt
  · cases hhalt
  · cases hmove

theorem dropArtificials_ne_pivotLimit {numStructural : ℕ} :
    (dropArtificials settings numStructural t).outcome ≠ .ok .pivotLimit := by
  intro h
  rw [dropArtificials] at h
  split at h
  · simp at h
  · obtain ⟨⟨t', kept⟩, -, h⟩ := Recorded.outcome_bind_eq_ok.1 h
    obtain ⟨t'', -, h⟩ := Recorded.outcome_bind_eq_ok.1 h
    simp at h

/-- Where the iteration halts, the phase is over. -/
theorem resume_halt {phase : Phase} {s : Stage K} {ending : Ending} (budget : ℕ)
    (hhalt : nextMove settings (p.numVars + p.numConstraints) s.tableau = .ok (.halt ending)) :
    (resume settings p phase budget s).outcome = (finish settings p phase s ending).outcome := by
  rw [resume, Recorded.outcome_bind, iterate_halt budget hhalt]
  rfl

/-- A pivot takes one of the pivots to go. -/
theorem resume_pivot {phase : Phase} {s : Stage K} {row col : ℕ} (budget : ℕ)
    (hmove : nextMove settings (p.numVars + p.numConstraints) s.tableau = .ok (.pivot row col))
    (hok : s.tableau.pivot row col = .ok t) :
    (resume settings p phase (budget + 1) s).outcome =
      (resume settings p phase budget ⟨t, s.pivots + 1⟩).outcome := by
  rw [resume, resume, Recorded.outcome_bind, Recorded.outcome_bind, iterate_pivot budget hmove hok]

/-- Where a pivot is next and there is none to go, the solve is cut short. -/
theorem resume_zero {phase : Phase} {s : Stage K} {row col : ℕ}
    (hmove : nextMove settings (p.numVars + p.numConstraints) s.tableau = .ok (.pivot row col)) :
    (resume settings p phase 0 s).outcome = .ok (.pivotLimit s.pivots) := by
  rw [resume, iterate, hmove]
  cases phase <;> rfl

/-- The second phase, once it has its objective. -/
theorem outcome_phaseTwo_eq
    (hok : t.setObjective (minimizationCosts p (p.numVars + p.numConstraints)) = .ok t') :
    (phaseTwo settings p (p.numVars + p.numConstraints) t n).outcome =
      (resume settings p .two (settings.maxPivots - n) ⟨t', n⟩).outcome := by
  rw [phaseTwo, hok, resume]
  simp only [primal, Recorded.ofExcept_ok, Recorded.outcome_bind, Recorded.report_eq]
  show ((iterate _ _ _ _).outcome >>= _) = _
  congr 1
  funext reached
  obtain ⟨s, ending⟩ := reached
  show ((conclude p s ending).outcome >>= _) = (conclude p s ending).outcome
  cases (conclude p s ending).outcome <;> rfl

/-- The solve, once the artificial columns are the objective. -/
theorem outcome_twoPhase_eq (hart : (standardForm settings p).numArtificial ≠ 0)
    (hok : (standardForm settings p).tableau.setObjective
      (artificialCosts (standardForm settings p)) = .ok t) :
    (twoPhase settings p).outcome = (resume settings p .one settings.maxPivots ⟨t, 0⟩).outcome := by
  rw [resume, Recorded.outcome_bind]
  cases hiter : (iterate settings (p.numVars + p.numConstraints) settings.maxPivots ⟨t, 0⟩).outcome
    with
  | error fault =>
      have hphase : (phaseOne settings (standardForm settings p)).outcome = .error fault := by
        rw [phaseOne, if_neg hart, hok]
        show (iterate settings (p.numVars + p.numConstraints) settings.maxPivots ⟨t, 0⟩
          >>= _).outcome = _
        rw [Recorded.outcome_bind, hiter]
        rfl
      rw [twoPhase, Recorded.outcome_bind, hphase]
      rfl
  | ok reached =>
      obtain ⟨s, ending⟩ := reached
      have hphase := outcome_phaseOne hart hok hiter
      rw [twoPhase, Recorded.outcome_bind, hphase]
      cases ending with
      | optimal =>
          show _ = (dropArtificials settings _ s.tableau >>= _).outcome
          rw [Recorded.outcome_bind]
          cases (dropArtificials settings (p.numVars + p.numConstraints) s.tableau).outcome with
          | error fault => rfl
          | ok found => cases found <;> rfl
      | unbounded => rfl
      | pivotLimit => rfl

/-- **With a limit a solve goes the same way as long as there are pivots left.** -/
theorem Unlimited.outcome {phase : Phase} (h : Unlimited settings p phase n t) (hnm : n ≤ m) :
    (twoPhase (settings.withMaxPivots m) p).outcome =
      (resume (settings.withMaxPivots m) p phase (m - n) ⟨t, n⟩).outcome := by
  induction h with
  | artificial hart hok =>
      rw [← standardForm_withMaxPivots settings p m] at hart hok
      exact outcome_twoPhase_eq hart hok
  | direct hart hok =>
      rw [← standardForm_withMaxPivots settings p m] at hart hok
      rw [outcome_twoPhase (phaseOne_of_numArtificial_eq_zero hart)]
      exact outcome_phaseTwo_eq hok
  | @pivot phase n _ _ row col _ hmove hok ih =>
      rw [ih (by omega), show m - n = m - (n + 1) + 1 by omega]
      exact resume_pivot _ ((nextMove_withMaxPivots ..).trans hmove) hok
  | @feasible n t t₁ _ _ hhalt hdrop hok ih =>
      rw [ih hnm, resume_halt _ ((nextMove_withMaxPivots ..).trans hhalt)]
      show (dropArtificials settings _ t >>= _).outcome = _
      rw [Recorded.outcome_bind, hdrop]
      exact outcome_phaseTwo_eq hok

/-- Where its iteration halts, a phase is over, with every limit that lets it come so far. -/
theorem Unlimited.outcome_halt {phase : Phase} {ending : Ending}
    (h : Unlimited settings p phase n t) (hnm : n ≤ m)
    (hhalt : nextMove settings (p.numVars + p.numConstraints) t = .ok (.halt ending)) :
    (twoPhase (settings.withMaxPivots m) p).outcome =
      (finish (settings.withMaxPivots m) p phase ⟨t, n⟩ ending).outcome :=
  (h.outcome hnm).trans (resume_halt _ ((nextMove_withMaxPivots ..).trans hhalt))

/-! ## A pivot or a verdict -/

/-- After so many pivots without a limit another one is next. -/
def PivotsAfter (settings : Settings K) (p : LinearProgram K) (n : ℕ) : Prop :=
  ∃ phase t row col t', Unlimited settings p phase n t ∧
    nextMove settings (p.numVars + p.numConstraints) t = .ok (.pivot row col) ∧
    t.pivot row col = .ok t'

/-- After so many pivots the solve has its verdict, whatever limit lets it come so far. -/
def SettlesAfter (settings : Settings K) (p : LinearProgram K) (n : ℕ) : Prop :=
  ∃ solution : Solution K, solution.status ≠ .pivotLimit ∧ solution.pivots = n ∧
    ∀ m ≥ n, (twoPhase (settings.withMaxPivots m) p).outcome = .ok solution

/-- Where another pivot would be next, a limit is hit. -/
theorem PivotsAfter.outcome (h : PivotsAfter settings p n) :
    (twoPhase (settings.withMaxPivots n) p).outcome = .ok (.pivotLimit n) := by
  obtain ⟨phase, t, row, col, -, ht, hmove, -⟩ := h
  rw [ht.outcome le_rfl, Nat.sub_self]
  exact resume_zero ((nextMove_withMaxPivots ..).trans hmove)

/-- Every pivot but the last has a next one. -/
theorem Unlimited.pivotsAfter {phase : Phase} (h : Unlimited settings p phase n t) (hkn : k < n) :
    PivotsAfter settings p k := by
  induction h with
  | artificial => exact absurd hkn k.not_lt_zero
  | direct => exact absurd hkn k.not_lt_zero
  | pivot h hmove hok ih =>
      rcases Nat.lt_succ_iff_lt_or_eq.1 hkn with hlt | rfl
      · exact ih hlt
      · exact ⟨_, _, _, _, _, h, hmove, hok⟩
  | feasible _ _ _ _ ih => exact ih hkn

section Course

variable (hp : p.Shaped) (htol : Scalar.ExcludesZero settings.pivotTol)
include hp htol

/-- What a solve without a limit comes to, the solve comes to. -/
theorem Unlimited.reached {phase : Phase} (h : Unlimited settings p phase n t) :
    Reached settings p phase.place t := by
  induction h with
  | artificial hart hok => exact .artificial .standard hart hok
  | direct hart hok => exact .priced (.direct .standard hart) hok
  | @pivot phase _ _ _ _ _ _ hmove hok ih =>
      cases phase with
      | one => exact .artificialPivot ih hmove hok
      | two => exact .pivot ih hmove hok
  | feasible _ hhalt hdrop hok ih =>
      obtain ⟨found, hdrop', hfound⟩ := exists_dropArtificials hp htol ih hhalt
      obtain rfl := Except.ok.inj (hdrop'.symm.trans hdrop)
      exact .priced (hfound _ rfl) hok

/-- Every phase of a solve iterates over something. -/
theorem exists_unlimited_zero : ∃ phase t, Unlimited settings p phase 0 t := by
  have hstart : Reached settings p .standard (standardForm settings p).tableau := .standard
  by_cases hart : (standardForm settings p).numArtificial = 0
  · obtain ⟨-, t, hok⟩ := (hstart.direct hart).ready hp htol
    exact ⟨.two, t, .direct hart hok⟩
  · obtain ⟨-, -, t, hok⟩ := hstart.ready hp htol
    exact ⟨.one, t, .artificial hart hok⟩

/-- A phase goes on with a pivot or halts. -/
theorem Unlimited.pivotsAfter_or_halts {phase : Phase} (h : Unlimited settings p phase n t) :
    PivotsAfter settings p n ∨
      ∃ ending, nextMove settings (p.numVars + p.numConstraints) t = .ok (.halt ending) ∧
        ending ≠ .pivotLimit := by
  have hmoves : Moves settings (p.numVars + p.numConstraints) t := by
    have hready := (h.reached hp htol).ready hp htol
    cases phase <;> exact hready
  obtain ⟨ending, hhalt⟩ | ⟨row, col, hmove, hat⟩ := hmoves
  · refine .inr ⟨ending, hhalt, ?_⟩
    rintro rfl
    exact nextMove_ne_pivotLimit hhalt
  · obtain ⟨t', hok⟩ := hat.succeeds
    exact .inl ⟨phase, t, row, col, t', h, hmove, hok⟩

/-- The second phase goes on with a pivot or has its verdict. -/
theorem Unlimited.pivotsAfter_or_settlesAfter_two (h : Unlimited settings p .two n t) :
    PivotsAfter settings p n ∨ SettlesAfter settings p n := by
  refine (h.pivotsAfter_or_halts hp htol).imp_right ?_
  rintro ⟨ending, hhalt, hending⟩
  obtain ⟨solution, hconclude, hstatus, hpivots⟩ := exists_conclude p ⟨t, n⟩ ending
  exact ⟨solution, fun hlimit => hending (hstatus.1 hlimit), hpivots,
    fun m hm => (h.outcome_halt hm hhalt).trans hconclude⟩

/-- **At each tableau a pivot is next, or the solve has its verdict.**  The first phase can also
find a feasible basis, and then the second one starts with the same count. -/
theorem Unlimited.pivotsAfter_or_settlesAfter {phase : Phase}
    (h : Unlimited settings p phase n t) :
    PivotsAfter settings p n ∨ SettlesAfter settings p n := by
  cases phase with
  | two => exact h.pivotsAfter_or_settlesAfter_two hp htol
  | one =>
      obtain hnext | ⟨ending, hhalt, hending⟩ := h.pivotsAfter_or_halts hp htol
      · exact .inl hnext
      cases ending with
      | pivotLimit => exact absurd rfl hending
      | unbounded =>
          exact .inr ⟨.infeasible n, by simp [Solution.infeasible], rfl,
            fun m hm => h.outcome_halt hm hhalt⟩
      | optimal =>
          obtain ⟨found, hdrop, hfound⟩ := exists_dropArtificials hp htol (h.reached hp htol) hhalt
          cases found with
          | pivotLimit => exact absurd hdrop dropArtificials_ne_pivotLimit
          | infeasible =>
              refine .inr ⟨.infeasible n, by simp [Solution.infeasible], rfl, fun m hm => ?_⟩
              rw [h.outcome_halt hm hhalt]
              show (dropArtificials settings _ t >>= _).outcome = _
              rw [Recorded.outcome_bind, hdrop]
              rfl
          | feasible t₁ =>
              obtain ⟨-, t', hok⟩ := (hfound t₁ rfl).ready hp htol
              exact (h.feasible hhalt hdrop hok).pivotsAfter_or_settlesAfter_two hp htol

/-- After any number of pivots there is another one, or the solve has settled by then. -/
theorem pivotsAfter_or_settlesAfter (k : ℕ) :
    PivotsAfter settings p k ∨ ∃ n ≤ k, SettlesAfter settings p n := by
  induction k with
  | zero =>
      obtain ⟨phase, t, h⟩ := exists_unlimited_zero hp htol
      exact (h.pivotsAfter_or_settlesAfter hp htol).imp_right fun hsettles => ⟨0, le_rfl, hsettles⟩
  | succ k ih =>
      obtain ⟨phase, t, row, col, t', h, hmove, hok⟩ | ⟨n, hn, hsettles⟩ := ih
      · exact ((h.pivot hmove hok).pivotsAfter_or_settlesAfter hp htol).imp_right
          fun hsettles => ⟨k + 1, le_rfl, hsettles⟩
      · exact .inr ⟨n, Nat.le_succ_of_le hn, hsettles⟩

end Course

end Simplex

namespace LinearProgram

open Simplex

variable {settings : Settings K} {p : LinearProgram K}

/-- **The limit decides only whether a solve has a verdict, never which.**  Under two limits a sound
program is solved both times; if the smaller one is not hit, both results are the same in all their
parts.  A limit is hit exactly if the two phases without a limit make more counted pivots than it
allows.  A solve never counts more pivots than its limit, and where the limit is hit it counts as
many. -/
theorem solve_limit (hcheck : p.check = .ok ()) (htol : Scalar.ExcludesZero settings.pivotTol)
    {k k' : ℕ} (hk : k ≤ k') :
    ∃ run solution run' solution',
      p.solve (settings.withMaxPivots k) = .ok run ∧ run.outcome = .ok solution ∧
      p.solve (settings.withMaxPivots k') = .ok run' ∧ run'.outcome = .ok solution' ∧
      (solution.status ≠ .pivotLimit → solution' = solution) ∧
      (solution.status = .pivotLimit ↔ ∃ phase n t, k < n ∧ Unlimited settings p phase n t) ∧
      solution.pivots ≤ k ∧ (solution.status = .pivotLimit → solution.pivots = k) := by
  obtain ⟨hp, -⟩ := p.check_eq_ok_iff_isFinite.1 hcheck
  obtain ⟨solution', hok', -⟩ :
      ∃ solution, (twoPhase (settings.withMaxPivots k') p).outcome = .ok solution ∧ _ :=
    exists_twoPhase hp htol
  obtain hnext | ⟨n, hn, solution, hstatus, rfl, hok⟩ :=
    pivotsAfter_or_settlesAfter hp htol k
  · refine ⟨_, .pivotLimit k, _, solution', solve_eq_ok hcheck _, hnext.outcome,
      solve_eq_ok hcheck _, hok', fun hne => absurd rfl hne, ⟨fun _ => ?_, fun _ => rfl⟩, le_rfl,
      fun _ => rfl⟩
    obtain ⟨phase, t, row, col, t', h, hmove, hpivot⟩ := hnext
    exact ⟨phase, k + 1, t', Nat.lt_succ_self k, h.pivot hmove hpivot⟩
  · refine ⟨_, solution, _, solution', solve_eq_ok hcheck _, hok k hn, solve_eq_ok hcheck _, hok',
      fun _ => ?_, ⟨fun hlimit => absurd hlimit hstatus, ?_⟩, hn,
      fun hlimit => absurd hlimit hstatus⟩
    · exact Except.ok.inj (hok'.symm.trans (hok k' (hn.trans hk)))
    · rintro ⟨phase, n, t, hlt, h⟩
      have hlimit := (h.pivotsAfter hlt).outcome
      obtain rfl := Except.ok.inj ((hok k hn).symm.trans hlimit)
      rfl

/-- In double precision the pinned program takes exactly two pivots: a limit of two is enough for
the optimum, and the limit of one hundred changes nothing. -/
theorem pinned_solve_limit :
    (pinned Binary64).check = .ok () ∧
    Scalar.ExcludesZero (Settings.standard : Settings Binary64).pivotTol ∧ 2 ≤ 100 ∧
    (∃ run solution, (pinned Binary64).solve (Settings.standard.withMaxPivots 100) = .ok run ∧
      run.outcome = .ok solution ∧ solution.status = .optimal ∧ solution.pivots = 2) ∧
    (∃ phase n t, 1 < n ∧ Unlimited .standard (pinned Binary64) phase n t) ∧
    ¬ ∃ phase n t, 2 < n ∧ Unlimited .standard (pinned Binary64) phase n t := by
  have hcheck : (pinned Binary64).check = .ok () := by decide +kernel
  have htol : Scalar.ExcludesZero (Settings.standard : Settings Binary64).pivotTol :=
    LawfulScalar.excludesZero (by decide +kernel)
  have hone : (twoPhase (Settings.standard.withMaxPivots 1) (pinned Binary64)).outcome.map
      (fun s => s.status) = .ok .pivotLimit := by
    decide +kernel
  have htwo : (twoPhase (Settings.standard.withMaxPivots 2) (pinned Binary64)).outcome.map
      (fun s => (s.status, s.pivots)) = .ok (.optimal, 2) := by
    decide +kernel
  have hle : 2 ≤ 100 := by decide
  obtain ⟨run, solution, run', solution', hrun, hok, hrun', hok', hsame, hlimit, -⟩ :=
    solve_limit hcheck htol hle
  obtain rfl : twoPhase (Settings.standard.withMaxPivots 2) (pinned Binary64) = run :=
    Except.ok.inj hrun
  rw [hok] at htwo
  obtain ⟨hstatus, hpivots⟩ : solution.status = .optimal ∧ solution.pivots = 2 := by
    simpa [Except.map] using htwo
  have hne : solution.status ≠ .pivotLimit := by simp [hstatus]
  refine ⟨hcheck, htol, hle, ⟨run', solution', hrun', hok', ?_, ?_⟩, ?_, fun h => hne (hlimit.2 h)⟩
  · rw [hsame hne, hstatus]
  · rw [hsame hne, hpivots]
  · obtain ⟨run, solution, -, -, hrun, hok, -, -, -, hlimit, -⟩ :=
      solve_limit (k := 1) hcheck htol le_rfl
    obtain rfl : twoPhase (Settings.standard.withMaxPivots 1) (pinned Binary64) = run :=
      Except.ok.inj hrun
    rw [hok] at hone
    exact hlimit.1 (Except.ok.inj hone)

end LinearProgram

end BranchBound
