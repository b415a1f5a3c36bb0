import BranchBound.Proofs.Search.Splitting
import BranchBound.Proofs.Simplex.TwoPhase
import BranchBound.Relaxation

/-!
# Backends whose answers are true

Two of a backend's verdicts say something about the relaxation it was asked for (`Answer.Holds`),
and a backend is sound if it only gives answers that hold.

The simplex method is one.  A bound as a row admits the points that the bound admits
(`dot_toRow_le_iff`), so the program with a row per bound has the feasible points within the bounds
(`withBounds_spec`).  With zero tolerances its linear solve is true, hence so is every answer of the
backend (`simplexBackend_isSound`).
-/

namespace BranchBound

variable {K : Type} [ExactScalar K] {σ : Type}

/-- **A bound as a row says what the bound says.** -/
theorem Bound.dot_toRow_le_iff {b : Bound K} {n : ℕ} {row : List K} {limit : K}
    (h : b.toRow n = .ok (row, limit)) :
    row.length = n ∧ ∀ y, Scalar.dot row y ≤ limit ↔ b.Admits y := by
  unfold toRow at h
  split at h
  · rename_i hvar
    cases hdir : b.direction with
    | upper =>
        rw [hdir] at h
        obtain ⟨rfl, rfl⟩ := by simpa using h
        refine ⟨by simp, ?_⟩
        intro y
        rw [dot_eq_combination, combination_unit hvar, one_mul, Admits, hdir]
    | lower =>
        rw [hdir] at h
        obtain ⟨rfl, rfl⟩ := by simpa using h
        refine ⟨by simp, ?_⟩
        intro y
        rw [dot_eq_combination, combination_unit hvar, neg_one_mul, neg_le_neg_iff, Admits, hdir]
  · cases h

namespace Relaxation

/-! ## True answers -/

/-- What an answer says of the relaxation under bounds.  Only two verdicts say anything. -/
structure Answer.Holds (a : Answer K) (p : LinearProgram K) (bounds : List (Bound K)) : Prop where
  optimal : a.verdict = .optimal → p.Feasible a.x ∧ Within bounds a.x ∧
    a.value = some (p.valueAt a.x) ∧ ∀ y, p.Feasible y → Within bounds y →
      p.sense.improves (p.valueAt y) (p.valueAt a.x) = false
  infeasible : a.verdict = .infeasible → ∀ y, p.Feasible y → ¬ Within bounds y

/-- All answers are true, whatever was asked before. -/
def Backend.IsSound (backend : Backend K σ) (p : LinearProgram K) : Prop :=
  ∀ s bounds a s', (backend.solve s bounds).outcome = .ok (a, s') → a.Holds p bounds

/-! ## Bounds as rows -/

/-- The program `q` is `p` with more constraints, which hold at the points within the bounds. -/
structure Bounded (p : LinearProgram K) (bounds : List (Bound K)) (q : LinearProgram K) : Prop where
  shaped : q.Shaped
  objective_eq : q.objective = p.objective
  sense_eq : q.sense = p.sense
  feasible_iff : ∀ y, q.Feasible y ↔ p.Feasible y ∧ Within bounds y

/-- One more row is one more constraint. -/
theorem feasible_pushRow_iff {p : LinearProgram K} (hp : p.Shaped) {row : List K} {limit : K}
    {y : List K} : (p.pushRow row limit).Feasible y ↔ p.Feasible y ∧ Scalar.dot row y ≤ limit := by
  have hzip : (p.pushRow row limit).rows.zip (p.pushRow row limit).limits =
      p.rows.zip p.limits ++ [(row, limit)] :=
    List.zip_append hp.rows_length
  constructor
  · intro h
    refine ⟨⟨h.length_eq, h.nonneg, fun r hr => h.le_limit r ?_⟩, h.le_limit (row, limit) ?_⟩
    · rw [hzip]
      exact List.mem_append_left _ hr
    · rw [hzip]
      exact List.mem_append_right _ (List.mem_singleton.2 rfl)
  · rintro ⟨h, hrow⟩
    refine ⟨h.length_eq, h.nonneg, ?_⟩
    intro r hr
    rw [hzip] at hr
    rcases List.mem_append.1 hr with hr | hr
    · exact h.le_limit r hr
    · obtain rfl := List.mem_singleton.1 hr
      exact hrow

omit [ExactScalar K] in
/-- A row of the right length fits. -/
theorem shaped_pushRow {p : LinearProgram K} (hp : p.Shaped) {row : List K} (limit : K)
    (hrow : row.length = p.numVars) : (p.pushRow row limit).Shaped where
  vars_pos := hp.vars_pos
  rows_length := by
    show (p.rows ++ [row]).length = (p.limits ++ [limit]).length
    rw [List.length_append, List.length_append, hp.rows_length]
    rfl
  row_length r hr := by
    rcases List.mem_append.1 hr with hr | hr
    · exact hp.row_length r hr
    · obtain rfl := List.mem_singleton.1 hr
      exact hrow

/-- A program that already has some of the bounds gets one more. -/
theorem Bounded.push {p q : LinearProgram K} {bounds : List (Bound K)} (h : Bounded p bounds q)
    {b : Bound K} {row : List K} {limit : K} (hrow : b.toRow p.numVars = .ok (row, limit)) :
    Bounded p (bounds ++ [b]) (q.pushRow row limit) where
  shaped := by
    refine shaped_pushRow h.shaped limit ?_
    rw [(Bound.dot_toRow_le_iff hrow).1, LinearProgram.numVars, LinearProgram.numVars,
      h.objective_eq]
  objective_eq := h.objective_eq
  sense_eq := h.sense_eq
  feasible_iff y := by
    rw [feasible_pushRow_iff h.shaped, h.feasible_iff, (Bound.dot_toRow_le_iff hrow).2,
      within_append_singleton, and_assoc]

/-- **The program with bounds has the feasible points within the bounds.** -/
theorem withBounds_spec {p q : LinearProgram K} (hp : p.Shaped) {bounds : List (Bound K)}
    (h : withBounds p bounds = .ok q) : Bounded p bounds q := by
  -- the fold goes on from a program that has the bounds before
  suffices hfold : ∀ (todo done : List (Bound K)) (r : LinearProgram K), Bounded p done r →
      todo.foldlM (fun p' b => (b.toRow p.numVars).map fun rl => p'.pushRow rl.1 rl.2) r =
        .ok q → Bounded p (done ++ todo) q by
    exact hfold bounds [] p ⟨hp, rfl, rfl, fun y => by simp [Within]⟩ h
  intro todo
  induction todo with
  | nil =>
      intro done r hr hok
      obtain rfl : r = q := by simpa [pure, Except.pure] using hok
      rwa [List.append_nil]
  | cons b rest ih =>
      intro done r hr hok
      rw [List.foldlM_cons] at hok
      cases hrow : b.toRow p.numVars with
      | error fault =>
          rw [hrow] at hok
          cases hok
      | ok rl =>
          rw [hrow] at hok
          have := ih (done ++ [b]) _ (hr.push hrow) hok
          rwa [List.append_assoc] at this

/-- **Bounds on variables of the program become rows after its own**, and together these say what
the bounds say. -/
theorem withBounds_eq_ok {p : LinearProgram K} {bounds : List (Bound K)}
    (h : ∀ b ∈ bounds, b.var < p.numVars) :
    ∃ added : List (List K × K), added.length = bounds.length ∧
      withBounds p bounds = .ok { p with
        rows := p.rows ++ added.map Prod.fst
        limits := p.limits ++ added.map Prod.snd } ∧
      ∀ y, Within bounds y ↔ ∀ r ∈ added, Scalar.dot r.1 y ≤ r.2 := by
  -- the fold goes on from a program that has other rows already
  suffices hfold : ∀ q : LinearProgram K, ∃ added : List (List K × K),
      added.length = bounds.length ∧
      bounds.foldlM (fun p' b => (b.toRow p.numVars).map fun rl => p'.pushRow rl.1 rl.2) q =
        .ok { q with
          rows := q.rows ++ added.map Prod.fst
          limits := q.limits ++ added.map Prod.snd } ∧
      ∀ y, Within bounds y ↔ ∀ r ∈ added, Scalar.dot r.1 y ≤ r.2 by
    exact hfold p
  induction bounds with
  | nil =>
      intro q
      exact ⟨[], rfl, by simp [pure, Except.pure], by simp [Within]⟩
  | cons b rest ih =>
      intro q
      obtain ⟨rl, hrow⟩ : ∃ rl, b.toRow p.numVars = .ok rl := by
        rw [Bound.toRow, if_pos (h b List.mem_cons_self)]
        cases b.direction <;> exact ⟨_, rfl⟩
      obtain ⟨added, hlen, hok, hadded⟩ :=
        ih (fun c hc => h c (List.mem_cons_of_mem _ hc)) (q.pushRow rl.1 rl.2)
      refine ⟨rl :: added, congrArg (· + 1) hlen, ?_, ?_⟩
      · rw [List.foldlM_cons, hrow]
        show rest.foldlM _ (q.pushRow rl.1 rl.2) = _
        rw [hok]
        simp [LinearProgram.pushRow]
      · intro y
        rw [List.forall_mem_cons, ← hadded, (Bound.dot_toRow_le_iff hrow).2]
        exact List.forall_mem_cons

/-! ## The simplex method -/

/-- Different statuses stand for different verdicts. -/
theorem ofStatus_injective : Function.Injective Verdict.ofStatus := by
  intro a b h
  cases a <;> cases b <;> first | rfl | cases h

/-- What a true verdict on the program with bounds says about the program within the bounds. -/
theorem holds_ofSolution {settings : LinearProgram.Settings K} {p q : LinearProgram K}
    {bounds : List (Bound K)} (hq : Bounded p bounds q) {s : LinearProgram.Solution K}
    (hs : q.Truthful settings s) : (Answer.ofSolution s).Holds p bounds := by
  have hvalue : ∀ y, q.valueAt y = p.valueAt y := by
    intro y
    rw [LinearProgram.valueAt, LinearProgram.valueAt, hq.objective_eq]
  constructor
  · intro hverdict
    have hstatus : s.status = .optimal := ofStatus_injective hverdict
    rw [LinearProgram.Truthful, hstatus] at hs
    obtain ⟨hfeas, hval, hbest⟩ := hs
    obtain ⟨hp, hwithin⟩ := (hq.feasible_iff s.x).1 hfeas
    rw [hvalue] at hval
    refine ⟨hp, hwithin, ?_, fun y hy hy' => ?_⟩
    · show (if s.status.isOptimal then some s.value else none) = _
      rw [hstatus, hval]
      rfl
    · have := hbest y ((hq.feasible_iff y).2 ⟨hy, hy'⟩)
      rwa [hvalue, hval, hq.sense_eq] at this
  · intro hverdict y hy hwithin
    have hstatus : s.status = .infeasible := ofStatus_injective hverdict
    rw [LinearProgram.Truthful, hstatus] at hs
    exact hs y ((hq.feasible_iff y).2 ⟨hy, hwithin⟩)

/-- With zero tolerances an answer comes from a true verdict on the program with bounds. -/
theorem solveBounded_truthful {settings : LinearProgram.Settings K} {p : LinearProgram K}
    (hp : p.Shaped) (hs : settings.IsExact) {bounds : List (Bound K)} {a : Answer K}
    (h : (solveBounded settings p bounds).outcome = .ok a) :
    ∃ q s, Bounded p bounds q ∧ q.Truthful settings s ∧ a = .ofSolution s := by
  unfold solveBounded at h
  cases hbounds : withBounds p bounds with
  | error fault =>
      rw [hbounds] at h
      cases h
  | ok q =>
      have hq := withBounds_spec hp hbounds
      have hsolve := LinearProgram.solve_eq_ok (q.check_eq_ok_iff.2 hq.shaped) settings
      obtain ⟨solution, hout, htrue⟩ := Simplex.twoPhase_spec hq.shaped hs
      rw [hbounds] at h
      simp only [hsolve, Recorded.outcome_bind, Recorded.outcome_mapStop, hout] at h
      exact ⟨q, solution, hq, htrue, (Except.ok.inj h).symm⟩

/-- **With zero tolerances the simplex method is a sound backend.** -/
theorem simplexBackend_isSound {settings : LinearProgram.Settings K} {p : LinearProgram K}
    (hp : p.Shaped) (hs : settings.IsExact) : (simplexBackend settings p).IsSound p := by
  intro solves bounds a solves' h
  simp only [simplexBackend, Recorded.outcome_bind_eq_ok] at h
  obtain ⟨a', hanswer, h⟩ := h
  obtain ⟨rfl, -⟩ : a' = a ∧ solves + 1 = solves' := by simpa using h
  obtain ⟨q, s, hq, htrue, rfl⟩ := solveBounded_truthful hp hs hanswer
  exact holds_ofSolution hq htrue

end Relaxation

end BranchBound
