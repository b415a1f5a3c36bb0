import BranchBound.Proofs.LawfulScalar
import BranchBound.Proofs.Relaxation
import BranchBound.Proofs.Simplex.Course

/-!
# Backends that always answer

A bound fits a program if it is on one of its variables, at a number.  Such bounds become rows that
are as sound as the program's own (`exists_withBounds`), so the simplex method has an answer to
every list of them, over any lawful scalars and as long as the tolerance for pivots is not negative
(`simplexBackend_answers`).
-/

namespace BranchBound

variable {K : Type} [Scalar K] {σ : Type}

namespace Bound

/-- The bound is on one of `n` variables, at a number. -/
structure Fits (b : Bound K) (n : ℕ) : Prop where
  var_lt : b.var < n
  isFinite_value : Scalar.isFinite b.value = true

/-- A row with a single entry has only numbers. -/
theorem isFinite_of_mem_set [LawfulScalar K] {n i : ℕ} {v : K} (hv : Scalar.isFinite v = true) :
    ∀ w ∈ (List.replicate n (0 : K)).set i v, Scalar.isFinite w = true := by
  intro w hw
  rcases List.mem_or_eq_of_mem_set hw with hw | rfl
  · rw [List.eq_of_mem_replicate hw]
    exact LawfulScalar.isFinite_zero
  · exact hv

/-- **A bound that fits is a row of numbers.** -/
theorem Fits.exists_toRow [LawfulScalar K] {b : Bound K} {n : ℕ} (h : b.Fits n) :
    ∃ row limit, b.toRow n = .ok (row, limit) ∧ row.length = n ∧
      (∀ v ∈ row, Scalar.isFinite v = true) ∧ Scalar.isFinite limit = true := by
  rw [toRow, if_pos h.var_lt]
  cases b.direction with
  | upper =>
      exact ⟨_, _, rfl, by simp, isFinite_of_mem_set LawfulScalar.isFinite_one, h.isFinite_value⟩
  | lower =>
      refine ⟨_, _, rfl, by simp, isFinite_of_mem_set ?_, ?_⟩
      · rw [LawfulScalar.isFinite_neg]
        exact LawfulScalar.isFinite_one
      · rw [LawfulScalar.isFinite_neg]
        exact h.isFinite_value

end Bound

namespace Relaxation

/-- The backend has an answer to every list of bounds that fit `n` variables, and its point has no
more coordinates. -/
def Backend.Answers (backend : Backend K σ) (n : ℕ) : Prop :=
  ∀ b bounds, (∀ c ∈ bounds, c.Fits n) →
    ∃ a b', (backend.solve b bounds).outcome = .ok (a, b') ∧ a.x.length ≤ n

/-- One more row of numbers leaves all entries numbers. -/
theorem isFinite_pushRow {p : LinearProgram K} (hp : p.IsFinite) {row : List K} {limit : K}
    (hrow : ∀ v ∈ row, Scalar.isFinite v = true) (hlimit : Scalar.isFinite limit = true) :
    (p.pushRow row limit).IsFinite where
  objective := hp.objective
  rows r hr := by
    rcases List.mem_append.1 hr with hr | hr
    · exact hp.rows r hr
    · obtain rfl := List.mem_singleton.1 hr
      exact hrow
  limits v hv := by
    rcases List.mem_append.1 hv with hv | hv
    · exact hp.limits v hv
    · obtain rfl := List.mem_singleton.1 hv
      exact hlimit

variable [LawfulScalar K] {p : LinearProgram K} {bounds : List (Bound K)}

/-- **A sound program stays sound under bounds that fit.** -/
theorem exists_withBounds (hshaped : p.Shaped) (hfinite : p.IsFinite)
    (hbounds : ∀ b ∈ bounds, b.Fits p.numVars) :
    ∃ q, withBounds p bounds = .ok q ∧ q.Shaped ∧ q.IsFinite ∧ q.numVars = p.numVars := by
  -- the fold goes on from a sound program with as many variables
  suffices hfold : ∀ r : LinearProgram K, r.Shaped → r.IsFinite → r.numVars = p.numVars →
      ∃ q, bounds.foldlM (fun p' b => (b.toRow p.numVars).map fun rl => p'.pushRow rl.1 rl.2) r =
        .ok q ∧ q.Shaped ∧ q.IsFinite ∧ q.numVars = p.numVars by
    exact hfold p hshaped hfinite rfl
  induction bounds with
  | nil => exact fun r hshaped hfinite hvars => ⟨r, rfl, hshaped, hfinite, hvars⟩
  | cons b rest ih =>
      intro r hshaped hfinite hvars
      obtain ⟨row, limit, hok, hlen, hrow, hlimit⟩ := (hbounds b List.mem_cons_self).exists_toRow
      obtain ⟨q, hq, hsound⟩ := ih (fun c hc => hbounds c (List.mem_cons_of_mem _ hc))
        (r.pushRow row limit) (shaped_pushRow hshaped limit (hlen.trans hvars.symm))
        (isFinite_pushRow hfinite hrow hlimit) hvars
      refine ⟨q, ?_, hsound⟩
      rw [List.foldlM_cons, hok]
      exact hq

variable {settings : LinearProgram.Settings K}

/-- **A sound program has an answer under all bounds that fit.** -/
theorem exists_solveBounded (hshaped : p.Shaped) (hfinite : p.IsFinite)
    (htol : 0 ≤ settings.pivotTol) (hbounds : ∀ b ∈ bounds, b.Fits p.numVars) :
    ∃ a, (solveBounded settings p bounds).outcome = .ok a ∧ a.x.length ≤ p.numVars := by
  obtain ⟨q, hq, hshaped', hfinite', hvars⟩ := exists_withBounds hshaped hfinite hbounds
  obtain ⟨solution, hsolve, hlen, -⟩ :=
    Simplex.exists_twoPhase hshaped' (LawfulScalar.excludesZero htol)
  refine ⟨.ofSolution solution, ?_, hvars ▸ hlen⟩
  rw [solveBounded, hq]
  simp only [LinearProgram.solve_eq_ok (q.check_eq_ok_iff_isFinite.2 ⟨hshaped', hfinite'⟩),
    Recorded.outcome_bind, Recorded.outcome_mapStop, hsolve]
  rfl

/-- **The simplex method always answers.** -/
theorem simplexBackend_answers (hshaped : p.Shaped) (hfinite : p.IsFinite)
    (htol : 0 ≤ settings.pivotTol) : (simplexBackend settings p).Answers p.numVars := by
  intro solves bounds hbounds
  obtain ⟨a, ha, hlen⟩ := exists_solveBounded hshaped hfinite htol hbounds
  exact ⟨a, solves + 1, Recorded.outcome_bind_eq_ok.2 ⟨a, ha, rfl⟩, hlen⟩

end Relaxation

end BranchBound
