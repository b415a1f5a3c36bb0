import BranchBound.Proofs.Simplex.DriveOut
import BranchBound.Proofs.Simplex.Steps
import BranchBound.Proofs.Tableau.Optimality

/-!
# What the first phase finds

Along the first phase the tableau keeps the solutions of the standard form, and the cost of a
solution is the sum of its artificial part (`CountsArtificial`).  Whatever the tolerances are, a
tableau that the phase hands on is a basis over variables and slacks (`phaseOne_slackBasis`), and
`Reaches` tells how the phase has got there.

Without tolerances more can be said (`Artificial`).  The artificial cost is never negative, so the
first phase is never unbounded; an optimum above zero leaves no feasible point
(`Artificial.not_feasible`), and an optimum of zero leaves the artificial columns at zero, so that
exchanging them makes no right-hand side negative.  What is left after that is a feasible basis
(`FeasibleBasis`).
-/

namespace BranchBound

variable {K : Type} [ExactScalar K]

namespace Simplex

open Tableau

variable {settings : LinearProgram.Settings K} {p : LinearProgram K} {t t' : Tableau K}

/-! ## Whatever the tolerances are -/

/-- The sum of the artificial variables. -/
def artificialSum (settings : LinearProgram.Settings K) (p : LinearProgram K) (z : ℕ → K) : K :=
  combination (List.replicate (standardForm settings p).numArtificial 1)
    fun k => z (p.numVars + p.numConstraints + k)

section ArtificialSum

variable {z : ℕ → K}
  (h : ∀ k < (standardForm settings p).numArtificial, 0 ≤ z (p.numVars + p.numConstraints + k))
include h

theorem artificialSum_term_nonneg : ∀ k ∈ Finset.range
    (List.replicate (standardForm settings p).numArtificial (1 : K)).length,
    0 ≤ (List.replicate (standardForm settings p).numArtificial (1 : K)).getD k 0 *
      z (p.numVars + p.numConstraints + k) := by
  intro k hk
  rw [Finset.mem_range, List.length_replicate] at hk
  rw [List.getD_replicate _ hk, one_mul]
  exact h k hk

/-- Without negative artificial variables their sum is not negative. -/
theorem artificialSum_nonneg : 0 ≤ artificialSum settings p z :=
  Finset.sum_nonneg (artificialSum_term_nonneg h)

/-- Artificial variables that are not negative vanish with their sum. -/
theorem eq_zero_of_artificialSum_le_zero (hsum : artificialSum settings p z ≤ 0) {k : ℕ}
    (hk : k < (standardForm settings p).numArtificial) :
    z (p.numVars + p.numConstraints + k) = 0 := by
  have hterm := artificialSum_term_nonneg h
  have hzero := (Finset.sum_eq_zero_iff_of_nonneg hterm).1
    (le_antisymm hsum (Finset.sum_nonneg hterm)) k (by simpa using hk)
  rwa [List.getD_replicate _ hk, one_mul] at hzero

end ArtificialSum

/-- The objective is the sum of the artificial columns. -/
def CountsArtificial (settings : LinearProgram.Settings K) (p : LinearProgram K) (t : Tableau K) :
    Prop :=
  ∀ z, t.Solves z → t.costAt z = artificialSum settings p z

theorem CountsArtificial.of_equivalent (h : CountsArtificial settings p t)
    (hequiv : t.Equivalent t') : CountsArtificial settings p t' := by
  intro z hz
  have hz' := (hequiv.solves_iff z).1 hz
  rw [hequiv.costAt_eq z hz', h z hz']

/-- **A new objective leaves the rows alone and costs every solution what the given costs say.** -/
theorem Describes.setObjective {n : ℕ} {solves : (ℕ → K) → Prop} (h : Describes n solves t)
    {costs : List K} (hlen : costs.length = n) :
    ∃ t', t.setObjective costs = .ok t' ∧ Describes n solves t' ∧ t'.rows = t.rows ∧
      ∀ z, t'.Solves z → t'.costAt z = combination costs z := by
  obtain ⟨t', hok, hre⟩ := setObjective_spec h.canonical (hlen.trans h.numCols_eq.symm)
  have hsolves : ∀ z, t'.Solves z ↔ t.Solves z := by
    intro z
    rw [Solves, hre.rows_eq]
    rfl
  exact ⟨t', hok,
    ⟨hre.canonical, hre.numCols_eq.trans h.numCols_eq, fun z => (hsolves z).trans (h.solves_iff z)⟩,
    hre.rows_eq, fun z hz => hre.costAt_eq z ((hsolves z).1 hz)⟩

/-- The standard form describes itself. -/
theorem describesStandard_standardForm (settings : LinearProgram.Settings K) (hp : p.Shaped) :
    DescribesStandard settings p (standardForm settings p).tableau :=
  ⟨standardForm_canonical hp, rfl, fun _ => Iff.rfl⟩

omit [ExactScalar K] in
/-- There is one artificial cost per column of the standard form. -/
theorem length_artificialCosts [Scalar K] (settings : LinearProgram.Settings K)
    (p : LinearProgram K) :
    (artificialCosts (standardForm settings p)).length =
      p.numVars + p.numConstraints + (standardForm settings p).numArtificial := by
  rw [artificialCosts, List.length_append, List.length_replicate, List.length_replicate]
  rfl

/-- **The tableau in which the first phase starts.** -/
theorem exists_setObjective_artificialCosts (settings : LinearProgram.Settings K)
    (hp : p.Shaped) :
    ∃ t, (standardForm settings p).tableau.setObjective
        (artificialCosts (standardForm settings p)) = .ok t ∧ DescribesStandard settings p t ∧
      t.rows = (standardForm settings p).tableau.rows ∧ CountsArtificial settings p t := by
  obtain ⟨t, hok, ht, hrows, hcost⟩ :=
    (describesStandard_standardForm settings hp).setObjective
      ((length_artificialCosts settings p).trans (numCols_standardForm settings p).symm)
  refine ⟨t, hok, ht, hrows, ?_⟩
  intro z hz
  rw [hcost z hz, artificialCosts, combination_append, combination_replicate_zero, zero_add,
    List.length_replicate]
  rfl

/-- **At an artificial optimum of zero the basic artificial columns have the value zero**, if none
of their values is negative. -/
theorem DescribesStandard.rhs_eq_zero (h : DescribesStandard settings p t)
    (hcount : CountsArtificial settings p t)
    (hnonneg : ∀ r ∈ t.rows, p.numVars + p.numConstraints ≤ r.basic → 0 ≤ r.line.rhs)
    (hzero : -t.constant ≤ 0) {r : TableauRow K} (hr : r ∈ t.rows)
    (hbasic : p.numVars + p.numConstraints ≤ r.basic) : r.line.rhs = 0 := by
  have hc := h.canonical
  have hpoint : ∀ k < (standardForm settings p).numArtificial,
      0 ≤ t.basicPoint (p.numVars + p.numConstraints + k) := by
    intro k _
    by_cases hk : ∃ s ∈ t.rows, s.basic = p.numVars + p.numConstraints + k
    · obtain ⟨s, hs, heq⟩ := hk
      rw [← heq, hc.basicPoint_basic hs]
      exact hnonneg s hs (heq ▸ Nat.le_add_right _ _)
    · rw [basicPoint_of_not_basic fun s hs heq => hk ⟨s, hs, heq⟩]
  have hsum : artificialSum settings p t.basicPoint ≤ 0 := by
    rw [← hcount _ hc.solves_basicPoint, hc.costAt_basicPoint]
    exact hzero
  have hlt := hc.basic_lt r hr
  rw [h.numCols_eq, numCols_standardForm] at hlt
  have hk : r.basic - (p.numVars + p.numConstraints) <
      (standardForm settings p).numArtificial := by omega
  have hone := eq_zero_of_artificialSum_le_zero hpoint hsum hk
  rwa [Nat.add_sub_cancel' hbasic, hc.basicPoint_basic hr] at hone

/-- A program none of whose constraints is negated starts with a basis over variables and slacks. -/
theorem slackBasis_standardForm (hp : p.Shaped)
    (hart : (standardForm settings p).numArtificial = 0) :
    SlackBasis p (standardForm settings p).tableau where
  canonical := standardForm_canonical hp
  numCols_eq := by rw [numCols_standardForm, hart, add_zero]
  solves_iff z := by
    have heval : ∀ r ∈ (standardForm settings p).tableau.rows,
        r.line.eval z = r.line.eval (firstValues (p.numVars + p.numConstraints) z) := by
      intro r hr
      refine combination_congr fun j hj => (firstValues_of_lt ?_ z).symm
      rwa [(standardForm_canonical hp).width r hr, numCols_standardForm, hart, add_zero] at hj
    have hsolves : (standardForm settings p).tableau.Solves z ↔
        (standardForm settings p).tableau.Solves
          (firstValues (p.numVars + p.numConstraints) z) :=
      forall₂_congr fun r hr => by rw [Line.Holds, Line.Holds, heval r hr]
    rw [hsolves, solves_standardForm_iff hp fun j hj => firstValues_of_le hj z]
    exact slackForm_congr hp fun j hj => firstValues_of_lt hj z

/-- How the first phase gets to the tableau that it hands on. -/
inductive Reaches (settings : LinearProgram.Settings K) (p : LinearProgram K) :
    Tableau K → Prop where
  /-- No constraint is negated: it is the standard form. -/
  | direct (hart : (standardForm settings p).numArtificial = 0) :
      Reaches settings p (standardForm settings p).tableau
  /-- The artificial columns are exchanged where their sum is least. -/
  | exchanged {k : ℕ} {t₀ t t' : Tableau K} (hart : (standardForm settings p).numArtificial ≠ 0)
      (hok : (standardForm settings p).tableau.setObjective
        (artificialCosts (standardForm settings p)) = .ok t₀)
      (hsteps : Steps settings (p.numVars + p.numConstraints) k t₀ t)
      (hhalt : nextMove settings (p.numVars + p.numConstraints) t = .ok (.halt .optimal))
      (hrhs : Inherits (p.numVars + p.numConstraints) t t') : Reaches settings p t'

omit [ExactScalar K] in
/-- Without artificial columns the first phase has nothing to do. -/
theorem phaseOne_of_numArtificial_eq_zero [Scalar K]
    (hart : (standardForm settings p).numArtificial = 0) :
    (phaseOne settings (standardForm settings p)).outcome =
      .ok (.feasible (standardForm settings p).tableau, 0) := by
  rw [phaseOne, if_pos hart]
  rfl

omit [ExactScalar K] in
/-- The first phase goes by the end of its run of the iteration. -/
theorem outcome_phaseOne [Scalar K] (hart : (standardForm settings p).numArtificial ≠ 0)
    (hok : (standardForm settings p).tableau.setObjective
      (artificialCosts (standardForm settings p)) = .ok t) {s : Stage K} {ending : Ending} :
    (iterate settings (p.numVars + p.numConstraints) settings.maxPivots ⟨t, 0⟩).outcome =
        .ok (s, ending) →
      (phaseOne settings (standardForm settings p)).outcome =
        match ending with
        | .optimal =>
          (dropArtificials settings (p.numVars + p.numConstraints) s.tableau).outcome.map
            fun r => (r, s.pivots)
        | .pivotLimit => .ok (.pivotLimit, s.pivots)
        | .unbounded => .ok (.infeasible, s.pivots) := by
  intro hiter
  rw [phaseOne, if_neg hart, hok]
  show (iterate settings (p.numVars + p.numConstraints) settings.maxPivots ⟨t, 0⟩ >>= _).outcome = _
  rw [Recorded.outcome_bind, hiter]
  cases ending with
  | optimal => exact Recorded.outcome_bind _ _
  | unbounded => rfl
  | pivotLimit => rfl

/-- **What the first phase hands on is a basis over variables and slacks.** -/
theorem phaseOne_slackBasis (hp : p.Shaped) (htol : 0 ≤ settings.pivotTol)
    (hlt : settings.pivotTol < 1) {pivots : ℕ}
    (h : (phaseOne settings (standardForm settings p)).outcome = .ok (.feasible t, pivots)) :
    SlackBasis p t ∧ Reaches settings p t := by
  by_cases hart : (standardForm settings p).numArtificial = 0
  · rw [phaseOne_of_numArtificial_eq_zero hart] at h
    obtain ⟨rfl, -⟩ : (standardForm settings p).tableau = t ∧ 0 = pivots := by simpa using h
    exact ⟨slackBasis_standardForm hp hart, .direct hart⟩
  · obtain ⟨t₀, hok, ht₀, -, -⟩ := exists_setObjective_artificialCosts settings hp
    obtain ⟨s, ending, hiter, hrun⟩ := iterate_runTo htol settings.maxPivots (s := ⟨t₀, 0⟩)
      ht₀.canonical ht₀.structural_le_numCols
    have hs : DescribesStandard settings p s.tableau :=
      ht₀.of_steps htol (ht₀.numCols_eq ▸ ht₀.structural_le_numCols) hrun.steps
    rw [outcome_phaseOne hart hok hiter] at h
    cases ending with
    | unbounded => simp at h
    | pivotLimit => simp at h
    | optimal =>
        obtain hhalt | ⟨hlimit, -⟩ := hrun.ends
        · obtain ⟨-, hdrop⟩ | ⟨-, t', hdrop, hbasis, hrhs⟩ :=
            dropArtificials_cases hp htol hlt hs
          · simp only [hdrop] at h
            cases h
          · simp only [hdrop] at h
            obtain ⟨rfl, -⟩ : t' = t ∧ s.pivots = pivots := by simpa using Except.ok.inj h
            exact ⟨hbasis, .exchanged hart hok hrun.steps hhalt hrhs⟩
        · cases hlimit

/-! ## Without tolerances -/

/-- A proper tableau over variables and slacks for the slack equations of a program. -/
structure FeasibleBasis (p : LinearProgram K) (t : Tableau K) : Prop where
  proper : t.Proper
  numCols_eq : t.numCols = p.numVars + p.numConstraints
  solves_iff : ∀ z, t.Solves z ↔ SlackForm p z

/-- A proper tableau for the standard form whose objective is the sum of the artificial columns. -/
def Artificial (settings : LinearProgram.Settings K) (p : LinearProgram K) : Tableau K → Prop :=
  Represents (standardForm settings p).tableau.numCols (standardForm settings p).tableau.Solves
    (artificialSum settings p)

/-- **A new objective costs every solution what the given costs say.** -/
theorem exists_setObjective (ht : t.Proper) {costs : List K} (hlen : costs.length = t.numCols) :
    ∃ t', t.setObjective costs = .ok t' ∧
      Represents t.numCols t.Solves (combination costs) t' := by
  obtain ⟨t', hok, h, hrows, hcost⟩ :=
    Describes.setObjective ⟨ht.canonical, rfl, fun _ => Iff.rfl⟩ hlen
  have hrhs : t'.RhsNonneg := by
    rw [RhsNonneg, hrows]
    exact ht.rhsNonneg
  exact ⟨t', hok, ⟨h.canonical, hrhs⟩, h.numCols_eq, h.solves_iff, hcost⟩

/-- The tableau in which the first phase starts without tolerances. -/
theorem setObjective_artificialCosts (hp : p.Shaped) (hs : settings.IsExact) :
    ∃ t, (standardForm settings p).tableau.setObjective
        (artificialCosts (standardForm settings p)) = .ok t ∧ Artificial settings p t := by
  obtain ⟨t, hok, ht, hrows, hcount⟩ := exists_setObjective_artificialCosts settings hp
  refine ⟨t, hok, ⟨ht.canonical, ?_⟩, ht.numCols_eq, ht.solves_iff, hcount⟩
  rw [RhsNonneg, hrows]
  exact standardForm_rhsNonneg hp hs

namespace Artificial

variable (h : Artificial settings p t)
include h

theorem structural_le_numCols : p.numVars + p.numConstraints ≤ t.numCols :=
  DescribesStandard.structural_le_numCols h.describes

/-- The steps of the first phase keep what holds at its start. -/
theorem of_steps (hs : settings.IsExact) {k : ℕ}
    (hsteps : Steps settings (p.numVars + p.numConstraints) k t t') : Artificial settings p t' :=
  Represents.of_steps h hs (h.numCols_eq ▸ h.structural_le_numCols) hsteps

/-- A solution without negative values does not cost less than nothing. -/
theorem costAt_nonneg {z : ℕ → K} (hz : t.Solves z) (hnonneg : ∀ j, 0 ≤ z j) : 0 ≤ t.costAt z := by
  rw [h.costAt_eq z hz]
  exact artificialSum_nonneg fun _ _ => hnonneg _

/-- **The artificial objective is never unbounded.** -/
theorem not_unbounded {col : ℕ} (hcost : t.objective.coef col < 0) :
    ¬ ∀ r ∈ t.rows, r.line.coef col ≤ 0 := by
  intro hrows
  obtain ⟨z, hz, hnonneg, hlt⟩ :=
    h.proper.canonical.exists_costAt_lt h.proper.rhsNonneg hcost hrows 0
  exact absurd (h.costAt_nonneg hz hnonneg) (not_le.2 hlt)

/-- **An artificial optimum above zero leaves no feasible point.** -/
theorem not_feasible (hp : p.Shaped)
    (hopt : ∀ j < p.numVars + p.numConstraints, 0 ≤ t.objective.coef j) (hpos : 0 < -t.constant)
    (x : List K) : ¬ p.Feasible x := by
  intro hx
  have hout : ∀ j, p.numVars + p.numConstraints ≤ j → slackPoint p x j = 0 := fun j hj =>
    slackPoint_of_le hp x hj
  have hsolves : t.Solves (slackPoint p x) :=
    (h.solves_iff _).2 ((solves_standardForm_iff hp hout).2 (slackForm_slackPoint hp x))
  have hcost : t.costAt (slackPoint p x) = 0 := by
    rw [h.costAt_eq _ hsolves, artificialSum, combination_congr (w := fun _ => 0 * 0),
      combination_mul, zero_mul]
    intro k _
    rw [zero_mul]
    exact hout _ (Nat.le_add_right _ _)
  have := neg_constant_le_costAt hopt (slackPoint_nonneg hx) hout
  rw [hcost] at this
  linarith

/-- **At an artificial optimum of zero what is left without the artificial columns is a feasible
basis.** -/
theorem feasibleBasis (hzero : -t.constant ≤ 0) (hbasis : SlackBasis p t')
    (hrhs : Inherits (p.numVars + p.numConstraints) t t') : FeasibleBasis p t' where
  proper :=
    { canonical := hbasis.canonical
      rhsNonneg := by
        have hart : ∀ r ∈ t.rows, p.numVars + p.numConstraints ≤ r.basic → r.line.rhs = 0 :=
          fun r hr => DescribesStandard.rhs_eq_zero h.describes h.costAt_eq
            (fun s hs _ => h.proper.rhsNonneg s hs) hzero hr
        intro r' hr'
        obtain heq | ⟨r, hr, heq⟩ := hrhs hart r' hr'
        · exact heq.ge
        · exact heq ▸ h.proper.rhsNonneg r hr }
  numCols_eq := hbasis.numCols_eq
  solves_iff := hbasis.solves_iff

end Artificial

/-- A program none of whose constraints is negated starts with a feasible basis. -/
theorem feasibleBasis_standardForm (hp : p.Shaped) (hs : settings.IsExact)
    (hart : (standardForm settings p).numArtificial = 0) :
    FeasibleBasis p (standardForm settings p).tableau where
  proper := standardForm_proper hp hs
  numCols_eq := (slackBasis_standardForm hp hart).numCols_eq
  solves_iff := (slackBasis_standardForm hp hart).solves_iff

/-! ## The outcome -/

/-- What the first phase promises with each of its outcomes. -/
def PhaseOneHolds (p : LinearProgram K) : Feasibility K → Prop
  | .feasible t => FeasibleBasis p t
  | .infeasible => ∀ x, ¬ p.Feasible x
  | .pivotLimit => True

/-- **Removing the artificial columns at an artificial optimum gives a feasible basis, unless there
is no feasible point.** -/
theorem dropArtificials_spec (hp : p.Shaped) (hs : settings.IsExact) (h : Artificial settings p t)
    (hopt : ∀ j < p.numVars + p.numConstraints, 0 ≤ t.objective.coef j) :
    ∃ r, (dropArtificials settings (p.numVars + p.numConstraints) t).outcome = .ok r ∧
      PhaseOneHolds p r ∧ r ≠ .pivotLimit := by
  have hlt : settings.pivotTol < 1 := hs.pivotTol_eq ▸ zero_lt_one
  obtain ⟨hpos, hok⟩ | ⟨hzero, t₂, hok, hbasis, hrhs⟩ :=
    dropArtificials_cases hp hs.pivotTol_eq.ge hlt h.describes
  · rw [hs.feasTol_eq] at hpos
    exact ⟨.infeasible, hok, h.not_feasible hp hopt hpos, by simp⟩
  · rw [hs.feasTol_eq] at hzero
    exact ⟨.feasible t₂, hok, h.feasibleBasis hzero hbasis hrhs, by simp⟩

/-- How the first phase ends when it has work to do: its run of the iteration, and what comes of
it. -/
structure PhaseOneEnd (settings : LinearProgram.Settings K) (p : LinearProgram K) (t : Tableau K)
    (s : Stage K) (ending : Ending) (r : Feasibility K) : Prop where
  run : RunTo settings (p.numVars + p.numConstraints) settings.maxPivots ⟨t, 0⟩ s ending
  holds : PhaseOneHolds p r
  pivotLimit_iff : r = .pivotLimit ↔ ending = .pivotLimit
  ending_ne : ending ≠ .unbounded

/-- **With artificial columns the first phase is a run of the iteration that ends at an optimum or
with the budget, and its outcome is true.** -/
theorem phaseOne_spec (hp : p.Shaped) (hs : settings.IsExact)
    (hart : (standardForm settings p).numArtificial ≠ 0)
    (hok : (standardForm settings p).tableau.setObjective
      (artificialCosts (standardForm settings p)) = .ok t) :
    ∃ s ending r, (phaseOne settings (standardForm settings p)).outcome = .ok (r, s.pivots) ∧
      PhaseOneEnd settings p t s ending r := by
  obtain ⟨t₁, hok₁, ht⟩ := setObjective_artificialCosts hp hs
  obtain rfl := Except.ok.inj (hok₁.symm.trans hok)
  obtain ⟨s, ending, hiter, hrun⟩ :=
    iterate_runTo hs.pivotTol_eq.ge settings.maxPivots (s := ⟨t₁, 0⟩) ht.proper.canonical
      ht.structural_le_numCols
  have hend := ht.of_steps hs hrun.steps
  have hphase := outcome_phaseOne hart hok hiter
  obtain hmove | ⟨rfl, -⟩ := hrun.ends
  · have hmoveAt := moveAt_of_nextMove hs hend.proper.canonical hend.structural_le_numCols hmove
    cases hmoveAt with
    | optimal hopt =>
        obtain ⟨r, hr, hholds, hne⟩ := dropArtificials_spec hp hs hend hopt
        refine ⟨s, .optimal, r, ?_, hrun, hholds, by simp [hne], by simp⟩
        rw [hphase]
        simp only [hr]
        rfl
    | unbounded hent hrows =>
        exact absurd hrows (hend.not_unbounded hent.cost_neg)
  · exact ⟨s, .pivotLimit, .pivotLimit, hphase, hrun, trivial, by simp, by simp⟩

end Simplex

end BranchBound
