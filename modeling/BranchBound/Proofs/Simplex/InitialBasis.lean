import BranchBound.Proofs.Simplex.Course
import BranchBound.Proofs.Simplex.Cycling

/-!
# The basis that the first phase hands on

Without tolerances the first phase neither loses feasible points nor adds any (`phaseOne_exact`).
What it hands on is a basis over the variables and slacks with one row for each constraint, and its
solutions are the points with their slacks; where it finds no basis there is no feasible point.

Two of its branches are never taken, and the record of the run shows it: the artificial objective
is never found unbounded, since it is at least zero, and no row is given up, since the slack of a
negated constraint can always take the place of its artificial column.
-/

namespace BranchBound

variable {K : Type} [ExactScalar K]

namespace Simplex

open Tableau

variable {settings : LinearProgram.Settings K} {p : LinearProgram K} {t t' : Tableau K}

/-- One row for each constraint, each solved for a variable or slack of its own whose column is a
unit vector, no negative right-hand side, and as solutions the points with their slacks. -/
structure InitialBasis (p : LinearProgram K) (t : Tableau K) : Prop where
  numCols_eq : t.numCols = p.numVars + p.numConstraints
  numRows_eq : t.numRows = p.numConstraints
  basis_nodup : t.basis.Nodup
  basis_lt : ∀ j ∈ t.basis, j < p.numVars + p.numConstraints
  unit : ∀ {i k : ℕ} {r s : TableauRow K}, t.rows[i]? = some r → t.rows[k]? = some s →
    s.line.coef r.basic = if k = i then 1 else 0
  rhs_nonneg : ∀ r ∈ t.rows, 0 ≤ r.line.rhs
  solves_iff : ∀ x s : List K, x.length = p.numVars → s.length = p.numConstraints →
    (t.Solves (fun j => (x ++ s).getD j 0) ↔
      List.zipWith (fun row slack => Scalar.dot row x + slack) p.rows s = p.limits)

/-- **The slack equations of a point and its slacks**, taken together as one list of values. -/
theorem slackForm_append_iff (hp : p.Shaped) {x s : List K} (hx : x.length = p.numVars)
    (hs : s.length = p.numConstraints) :
    SlackForm p (fun j => (x ++ s).getD j 0) ↔
      List.zipWith (fun row slack => Scalar.dot row x + slack) p.rows s = p.limits := by
  have hrows : p.rows.length = s.length := hp.rows_length.trans hs.symm
  -- what a constraint says about the list of values
  have hrow : ∀ (i : ℕ) (hi : i < p.rows.length) (hi' : i < s.length),
      combination (p.rows[i]) (fun j => (x ++ s).getD j 0) + (x ++ s).getD (p.numVars + i) 0 =
        Scalar.dot (p.rows[i]) x + s[i] := by
    intro i hi hi'
    have hlen := hp.row_length _ (List.getElem_mem hi)
    rw [dot_eq_combination, List.getD_append_right _ _ _ _ (by omega), hx, Nat.add_sub_cancel_left,
      List.getD_eq_getElem _ _ hi']
    congr 1
    exact combination_congr fun j hj => List.getD_append _ _ _ _ (by omega)
  constructor
  · intro h
    apply List.ext_getElem
    · rw [List.length_zipWith, hp.rows_length, hs, min_self]
      rfl
    · intro i hi hi'
      have hir : i < p.rows.length := by
        rw [List.length_zipWith] at hi
        omega
      rw [List.getElem_zipWith, ← hrow i hir (hrows ▸ hir)]
      refine h i (p.rows[i], p.limits[i]) ?_
      rw [List.getElem?_eq_getElem (by rw [List.length_zip]; omega), List.getElem_zip]
  · intro h i c hc
    obtain ⟨hi, rfl⟩ := List.getElem?_eq_some_iff.1 hc
    rw [List.length_zip] at hi
    have hir : i < p.rows.length := by omega
    rw [List.getElem_zip]
    rw [hrow i hir (hrows ▸ hir)]
    have hiz : i < (List.zipWith (fun row slack => Scalar.dot row x + slack) p.rows s).length := by
      rw [List.length_zipWith]
      omega
    have hget := List.getElem_of_eq h hiz
    rwa [List.getElem_zipWith] at hget

theorem FeasibleBasis.initialBasis (hp : p.Shaped) (h : FeasibleBasis p t)
    (hrows : t.numRows = p.numConstraints) : InitialBasis p t where
  numCols_eq := h.numCols_eq
  numRows_eq := hrows
  basis_nodup := h.proper.canonical.basis_nodup
  basis_lt j hj := by
    obtain ⟨r, hr, rfl⟩ := mem_basis_iff.1 hj
    exact h.numCols_eq ▸ h.proper.canonical.basic_lt r hr
  unit := h.proper.canonical.unit
  rhs_nonneg := h.proper.rhsNonneg
  solves_iff _ _ hx hs := (h.solves_iff _).trans (slackForm_append_iff hp hx hs)

/-! ## What the first phase reports -/

/-- The event is neither of an unbounded artificial objective nor of a row that is given up. -/
def Event.IsRegular : Event K → Prop
  | .artificialRay | .redundantRow _ => False
  | _ => True

omit [ExactScalar K] in
/-- The iteration reports its pivots and nothing else. -/
theorem events_iterate [Scalar K] (settings : LinearProgram.Settings K) (candidates budget : ℕ)
    (s : Stage K) : ∀ e ∈ (iterate settings candidates budget s).events, e.IsRegular := by
  have hsilent : ∀ {α : Type} (a : Except Fault α),
      ∀ e ∈ (Recorded.ofExcept a : Run K α).events, e.IsRegular := by
    simp
  induction budget generalizing s with
  | zero =>
      rw [iterate]
      refine Recorded.forall_events_bind (hsilent _) fun move _ => ?_
      cases move <;> simp
  | succ budget ih =>
      rw [iterate]
      refine Recorded.forall_events_bind (hsilent _) fun move _ => ?_
      cases move with
      | halt ending => simp
      | pivot row col =>
          refine Recorded.forall_events_bind ?_ fun s' _ => ih s'
          refine Recorded.forall_events_bind (hsilent _) fun leaving _ => ?_
          refine Recorded.forall_events_bind (by simp [Event.IsRegular]) fun _ _ => ?_
          exact Recorded.forall_events_bind (hsilent _) fun _ _ => by simp

/-- **Removing the artificial columns gives up no row.** -/
theorem dropArtificials_regular (hp : p.Shaped) (hs : settings.IsExact)
    (h : DescribesStandard settings p t) :
    (∀ e ∈ (dropArtificials settings (p.numVars + p.numConstraints) t).events, e.IsRegular) ∧
    ∀ t', (dropArtificials settings (p.numVars + p.numConstraints) t).outcome =
      .ok (.feasible t') → t'.numRows = t.numRows := by
  rw [dropArtificials]
  by_cases hpos : settings.feasTol < -t.constant
  · rw [if_pos hpos]
    exact ⟨by simp [Event.IsRegular], by simp⟩
  · obtain ⟨events, t₁, kept, hok, hevents, hdriven, hrows, -⟩ :=
      driveOut_spec hp hs.pivotTol_eq.ge (hs.pivotTol_eq ▸ zero_lt_one) (.start h)
    have hkept : kept = List.range t₁.rows.length := by simpa using hdriven.rows_eq
    obtain ⟨t₂, hok', hrest⟩ := restrict_spec
      (fun i hi => List.mem_range.1 (hkept ▸ hi)) hdriven.describes.structural_le_numCols
    have hrows₂ : t₂.numRows = t.numRows := by
      rw [← hrows, numRows, ← hrest.rows.length_eq, hkept, List.length_range]
      rfl
    have hevents' : ∀ e ∈ events, e.IsRegular := by
      intro e he
      obtain ⟨row, col, rfl⟩ := hevents e he
      trivial
    rw [if_neg hpos, hok]
    simp only [hok', Recorded.bind_ok, Recorded.ofExcept_ok]
    refine ⟨by simpa using hevents', ?_⟩
    rintro t' ⟨⟩
    exact hrows₂

/-- **The first phase takes neither of the two branches**, and its tableaus have one row for each
constraint. -/
theorem phaseOne_regular (hp : p.Shaped) (hs : settings.IsExact) :
    (∀ e ∈ (phaseOne settings (standardForm settings p)).events, e.IsRegular) ∧
    ∀ t pivots, (phaseOne settings (standardForm settings p)).outcome =
      .ok (.feasible t, pivots) → t.numRows = p.numConstraints := by
  by_cases hart : (standardForm settings p).numArtificial = 0
  · rw [phaseOne, if_pos hart]
    refine ⟨by simp, ?_⟩
    rintro t pivots ⟨⟩
    exact numRows_standardForm settings hp
  · obtain ⟨t₀, hok, ht₀⟩ := setObjective_artificialCosts hp hs
    obtain ⟨s, ending, hiter, hrun⟩ := iterate_runTo hs.pivotTol_eq.ge settings.maxPivots
      (s := ⟨t₀, 0⟩) ht₀.proper.canonical ht₀.structural_le_numCols
    have hend := ht₀.of_steps hs hrun.steps
    have hrows : s.tableau.numRows = p.numConstraints := by
      obtain ⟨t₁, hok₁, -, hrows₁, -⟩ := exists_setObjective_artificialCosts settings hp
      obtain rfl := Except.ok.inj (hok₁.symm.trans hok)
      rw [hrun.steps.numRows_eq, ← numRows_standardForm settings hp, numRows, numRows, hrows₁]
    obtain ⟨hdropEvents, hdropRows⟩ := dropArtificials_regular hp hs hend.describes
    have hnot : ending ≠ .unbounded := by
      rintro rfl
      obtain hhalt | ⟨hlimit, -⟩ := hrun.ends
      · cases moveAt_of_nextMove hs hend.proper.canonical hend.structural_le_numCols hhalt with
        | unbounded hent hle => exact hend.not_unbounded hent.cost_neg hle
      · cases hlimit
    refine ⟨?_, fun t pivots hfound => ?_⟩
    · rw [phaseOne, if_neg hart, hok, Recorded.ofExcept_ok, Recorded.bind_ok, List.nil_append]
      refine Recorded.forall_events_bind (events_iterate settings _ _ _) fun r hr => ?_
      obtain rfl := Except.ok.inj (hiter.symm.trans hr)
      cases ending with
      | optimal => exact Recorded.forall_events_bind hdropEvents fun _ _ => by simp
      | unbounded => exact absurd rfl hnot
      | pivotLimit => simp
    · rw [outcome_phaseOne hart hok hiter] at hfound
      cases ending with
      | optimal =>
          cases hdrop :
              (dropArtificials settings (p.numVars + p.numConstraints) s.tableau).outcome with
          | error fault => simp [hdrop, Except.map] at hfound
          | ok found =>
              obtain ⟨rfl, -⟩ : found = .feasible t ∧ s.pivots = pivots := by
                simpa [hdrop, Except.map] using hfound
              exact (hdropRows t hdrop).trans hrows
      | unbounded => exact absurd rfl hnot
      | pivotLimit => simp at hfound

end Simplex

namespace LinearProgram

open Simplex

variable {settings : Settings K} {p : LinearProgram K}

/-- **The first phase neither loses nor adds feasible points.**  Without tolerances, for a sound
program and whatever the rule and the limit, it has an outcome; it never finds the artificial
objective unbounded and gives up no row; where it finds that there is no basis, there is no feasible
point, and where it stops at the limit, the limit is used up; and a basis that it finds is one over
the variables and slacks, with one row for each constraint, whose solutions are the points with
their slacks. -/
theorem phaseOne_exact (hcheck : p.check = .ok ()) (hs : settings.IsExact) :
    ∃ found pivots,
      (phaseOne settings (standardForm settings p)).outcome = .ok (found, pivots) ∧
      (.artificialRay ∉ (phaseOne settings (standardForm settings p)).events) ∧
      (∀ row, .redundantRow row ∉ (phaseOne settings (standardForm settings p)).events) ∧
      (found = .infeasible → ∀ x, ¬ p.Feasible x) ∧
      (found = .pivotLimit → pivots = settings.maxPivots) ∧
      ∀ t, found = .feasible t → InitialBasis p t := by
  have hp := p.check_eq_ok_iff.1 hcheck
  obtain ⟨found, pivots, hok, hholds, -, hlimit⟩ := phaseOne_holds hp hs
  obtain ⟨hevents, hrows⟩ := phaseOne_regular hp hs
  refine ⟨found, pivots, hok, fun hray => hevents _ hray, fun row hrow => hevents _ hrow, ?_,
    hlimit, ?_⟩
  · rintro rfl
    exact hholds
  · rintro t rfl
    exact FeasibleBasis.initialBasis hp hholds (hrows t pivots hok)

/-- The last basis of the pinned program: `x` less the second slack is one, the slacks cancel. -/
def pinnedBasis : Tableau ℚ where
  rows := [⟨0, ⟨[1, 0, -1], 1⟩⟩, ⟨1, ⟨[0, 1, 1], 0⟩⟩]
  objective := ⟨[0, 0, 0], 0⟩

/-- The artificial column of the pinned program stays basic at level zero in a row whose structural
entries are not positive.  After the one counted pivot it is exchanged on an entry below zero, and
what is left is a basis. -/
theorem pinned_phaseOne_exact :
    (pinned ℚ).check = .ok () ∧ (Settings.exact .dantzig 10 : Settings ℚ).IsExact ∧
    (phaseOne (.exact .dantzig 10) (standardForm (.exact .dantzig 10) (pinned ℚ))).events.length =
        2 ∧
    (phaseOne (.exact .dantzig 10) (standardForm (.exact .dantzig 10) (pinned ℚ))).outcome =
        .ok (.feasible pinnedBasis, 1) ∧
    InitialBasis (pinned ℚ) pinnedBasis := by
  have hcheck : (pinned ℚ).check = .ok () := by decide +kernel
  have hs : (Settings.exact .dantzig 10 : Settings ℚ).IsExact := Settings.isExact_exact _ _
  have heval : (phaseOne (.exact .dantzig 10) (standardForm (.exact .dantzig 10)
      (pinned ℚ))).outcome = .ok (.feasible pinnedBasis, 1) := by
    decide +kernel
  have hevents : (phaseOne (.exact .dantzig 10) (standardForm (.exact .dantzig 10)
      (pinned ℚ))).events.length = 2 := by
    decide +kernel
  obtain ⟨found, pivots, hok, -, -, -, -, hbasis⟩ := phaseOne_exact hcheck hs
  obtain ⟨rfl, -⟩ : found = .feasible pinnedBasis ∧ pivots = 1 := by
    simpa using hok.symm.trans heval
  exact ⟨hcheck, hs, hevents, heval, hbasis _ rfl⟩

end LinearProgram

end BranchBound
