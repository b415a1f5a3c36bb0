import BranchBound.Proofs.Feasible
import BranchBound.Relaxation

/-!
# Mirrored programs

A program whose objective is negated and whose direction is turned round has the same points, with
the other sign at their values (`LinearProgram.mirror`).  The simplex method minimizes, so on both
it does the same steps; only the value it reads back at the end has the other sign
(`Simplex.outcome_twoPhase_mirror`).  So a relaxation of the mirrored program gets the same answer,
mirrored (`Relaxation.outcome_simplexBackend_mirror`).

Values at the rim come out of some linear solves and stand in for missing values.  That they mirror
each other is asked for by `SymmetricRim`.
-/

namespace BranchBound

/-- The other direction. -/
def Sense.flip : Sense → Sense
  | .minimize => .maximize
  | .maximize => .minimize

/-- The values at the rim of the line are mirror images. -/
class SymmetricRim (K : Type) [Scalar K] : Prop where
  /-- What lies below every number mirrors what lies above. -/
  neg_bottom : -(Scalar.bottom : K) = Scalar.top
  /-- What lies above every number mirrors what lies below. -/
  neg_top : -(Scalar.top : K) = Scalar.bottom
  /-- An undefined value stays undefined. -/
  neg_undefined : -(Scalar.undefined : K) = Scalar.undefined

instance : SymmetricRim ℚ where
  neg_bottom := neg_zero
  neg_top := neg_zero
  neg_undefined := neg_zero

variable {K : Type} [ExactScalar K]

/-! ## Values in both directions -/

namespace Sense

theorem cost_flip_neg (s : Sense) (v : K) : s.flip.cost (-v) = s.cost v := by
  cases s with
  | minimize => exact neg_neg v
  | maximize => rfl

/-- **Negated values compare the other way round.** -/
theorem improves_flip_neg (s : Sense) (a b : K) : s.flip.improves (-a) (-b) = s.improves a b := by
  rw [Bool.eq_iff_iff, improves_iff, improves_iff, cost_flip_neg, cost_flip_neg]

variable [SymmetricRim K]

theorem worstValue_flip (s : Sense) : (s.flip.worstValue : K) = -s.worstValue := by
  cases s with
  | minimize => exact SymmetricRim.neg_top.symm
  | maximize => exact SymmetricRim.neg_bottom.symm

theorem limitValue_flip (s : Sense) : (s.flip.limitValue : K) = -s.limitValue := by
  cases s with
  | minimize => exact SymmetricRim.neg_bottom.symm
  | maximize => exact SymmetricRim.neg_top.symm

end Sense

/-- Two runs end alike if their first parts do and what comes after them does. -/
theorem Recorded.outcome_bind_map {ε ε' σ α α' β β' : Type} {r : Recorded ε σ α}
    {r' : Recorded ε' σ α'} {k : α → Recorded ε σ β} {k' : α' → Recorded ε' σ β'} {f : α → α'}
    {g : β → β'} (h : r'.outcome = r.outcome.map f)
    (hk : ∀ a, (k' (f a)).outcome = (k a).outcome.map g) :
    (r' >>= k').outcome = (r >>= k).outcome.map g := by
  rw [outcome_bind, outcome_bind, h]
  cases r.outcome with
  | error _ => rfl
  | ok a => exact hk a

/-- After the same first part two runs end alike if the rest does. -/
theorem Recorded.outcome_bind_map_right {ε σ α β β' : Type} {r : Recorded ε σ α}
    {k : α → Recorded ε σ β} {k' : α → Recorded ε σ β'} {g : β → β'}
    (hk : ∀ a, (k' a).outcome = (k a).outcome.map g) :
    (r >>= k').outcome = (r >>= k).outcome.map g := by
  refine outcome_bind_map (f := id) ?_ hk
  cases r.outcome <;> rfl

/-! ## Linear programs -/

namespace LinearProgram

/-- The program with the negated objective and the other direction. -/
def mirror (p : LinearProgram K) : LinearProgram K :=
  { p with objective := p.objective.map fun c => -c, sense := p.sense.flip }

/-- The same result with the negated value. -/
def Solution.mirror (s : Solution K) : Solution K := { s with value := -s.value }

@[simp] theorem numVars_mirror (p : LinearProgram K) : p.mirror.numVars = p.numVars :=
  List.length_map _

/-- The same defects are found. -/
theorem check_mirror (p : LinearProgram K) : p.mirror.check = p.check := by
  have hmismatch : p.mirror.mismatch? = p.mismatch? := by
    rw [mismatch?, mismatch?, numVars_mirror]
    rfl
  rw [check, check, hmismatch, nonFinite?_eq_none, nonFinite?_eq_none]

variable [SymmetricRim K]

theorem mirror_infeasible (pivots : ℕ) :
    (Solution.infeasible pivots : Solution K).mirror = .infeasible pivots := by
  rw [Solution.infeasible, Solution.mirror, SymmetricRim.neg_undefined]

theorem mirror_pivotLimit (pivots : ℕ) :
    (Solution.pivotLimit pivots : Solution K).mirror = .pivotLimit pivots := by
  rw [Solution.pivotLimit, Solution.mirror, SymmetricRim.neg_undefined]

end LinearProgram

/-! ## The simplex method -/

namespace Simplex

variable (settings : LinearProgram.Settings K) (p : LinearProgram K)

theorem standardForm_mirror : standardForm settings p.mirror = standardForm settings p := by
  rw [standardForm, standardForm, LinearProgram.numVars_mirror]
  rfl

/-- **Both programs are minimized at the same costs.** -/
theorem minimizationCosts_mirror (n : ℕ) :
    minimizationCosts p.mirror n = minimizationCosts p n := by
  rw [minimizationCosts, minimizationCosts, LinearProgram.numVars_mirror]
  congr 1
  show (p.objective.map fun c => -c).map _ = _
  rw [List.map_map]
  refine List.map_congr_left fun c _ => ?_
  show (if p.sense.flip.isMaximize then -1 else 1) * -c = (if p.sense.isMaximize then -1 else 1) * c
  cases p.sense with
  | minimize =>
      show (-1 : K) * -c = 1 * c
      ring
  | maximize =>
      show (1 : K) * -c = -1 * c
      ring

variable [SymmetricRim K]

/-- **The value that is read back has the other sign.** -/
theorem outcome_conclude_mirror (s : Stage K) (e : Ending) :
    (conclude p.mirror s e).outcome =
      (conclude p s e).outcome.map LinearProgram.Solution.mirror := by
  cases e with
  | optimal =>
      obtain ⟨c, rows, limits, sense⟩ := p
      cases sense with
      | minimize =>
          show Except.ok (LinearProgram.Solution.optimal (s.tableau.primalValues
            (c.map fun v => -v).length) s.tableau.constant s.pivots) =
              Except.ok (.optimal (s.tableau.primalValues c.length) (- -s.tableau.constant)
                s.pivots)
          rw [List.length_map, neg_neg]
      | maximize =>
          show Except.ok (LinearProgram.Solution.optimal (s.tableau.primalValues
            (c.map fun v => -v).length) (-s.tableau.constant) s.pivots) =
              Except.ok (.optimal (s.tableau.primalValues c.length) (-s.tableau.constant) s.pivots)
          rw [List.length_map]
  | unbounded =>
      show Except.ok (LinearProgram.Solution.unbounded p.sense.flip s.pivots) = _
      rw [LinearProgram.Solution.unbounded, Sense.limitValue_flip]
      rfl
  | pivotLimit =>
      show Except.ok (LinearProgram.Solution.pivotLimit s.pivots) =
        Except.ok (LinearProgram.Solution.pivotLimit s.pivots).mirror
      rw [LinearProgram.mirror_pivotLimit]

theorem outcome_phaseTwo_mirror (n : ℕ) (t : Tableau K) (pivots : ℕ) :
    (phaseTwo settings p.mirror n t pivots).outcome =
      (phaseTwo settings p n t pivots).outcome.map LinearProgram.Solution.mirror := by
  rw [phaseTwo, phaseTwo, minimizationCosts_mirror]
  refine Recorded.outcome_bind_map_right fun t => Recorded.outcome_bind_map_right ?_
  rintro ⟨s, ending⟩
  exact Recorded.outcome_bind_map (outcome_conclude_mirror p s ending) fun _ => rfl

/-- **Both programs get the same answer**, up to the sign of its value. -/
theorem outcome_twoPhase_mirror : (twoPhase settings p.mirror).outcome =
    (twoPhase settings p).outcome.map LinearProgram.Solution.mirror := by
  rw [twoPhase, twoPhase, standardForm_mirror]
  refine Recorded.outcome_bind_map_right ?_
  rintro ⟨feasibility, pivots⟩
  cases feasibility with
  | feasible t => exact outcome_phaseTwo_mirror settings p _ t pivots
  | infeasible => exact congrArg Except.ok (LinearProgram.mirror_infeasible pivots).symm
  | pivotLimit => exact congrArg Except.ok (LinearProgram.mirror_pivotLimit pivots).symm

end Simplex

/-! ## Relaxations -/

namespace Relaxation

/-- The same answer with the negated value. -/
def Answer.mirror (a : Answer K) : Answer K := { a with value := a.value.map fun v => -v }

theorem Answer.ofSolution_mirror (s : LinearProgram.Solution K) :
    Answer.ofSolution s.mirror = (Answer.ofSolution s).mirror := by
  obtain ⟨status, x, value, pivots⟩ := s
  cases status <;> rfl

/-- The rows of bounds are the same. -/
theorem withBounds_mirror (p : LinearProgram K) (bounds : List (Bound K)) :
    withBounds p.mirror bounds = (withBounds p bounds).map LinearProgram.mirror := by
  rw [withBounds, withBounds, LinearProgram.numVars_mirror]
  -- the fold goes on from a program that has rows already
  suffices hfold : ∀ q : LinearProgram K,
      bounds.foldlM (fun (p' : LinearProgram K) (b : Bound K) =>
          (b.toRow p.numVars).map fun rl => p'.pushRow rl.1 rl.2) q.mirror =
        (bounds.foldlM (fun (p' : LinearProgram K) (b : Bound K) =>
          (b.toRow p.numVars).map fun rl => p'.pushRow rl.1 rl.2) q).map LinearProgram.mirror by
    exact hfold p
  induction bounds with
  | nil => exact fun _ => rfl
  | cons b rest ih =>
      intro q
      rw [List.foldlM_cons, List.foldlM_cons]
      cases b.toRow p.numVars with
      | error _ => rfl
      | ok rl => exact ih (q.pushRow rl.1 rl.2)

variable [SymmetricRim K] (settings : LinearProgram.Settings K) (p : LinearProgram K)

theorem outcome_solveBounded_mirror (bounds : List (Bound K)) :
    (solveBounded settings p.mirror bounds).outcome =
      (solveBounded settings p bounds).outcome.map Answer.mirror := by
  rw [solveBounded, solveBounded, withBounds_mirror]
  cases withBounds p bounds with
  | error _ => rfl
  | ok q =>
      simp only [Except.map]
      rw [LinearProgram.solve, LinearProgram.solve, LinearProgram.check_mirror]
      cases q.check with
      | error _ => rfl
      | ok _ =>
          have hrun : ((Simplex.twoPhase settings q.mirror).mapStop Breakdown.fault).outcome =
              ((Simplex.twoPhase settings q).mapStop Breakdown.fault).outcome.map
                LinearProgram.Solution.mirror := by
            rw [Recorded.outcome_mapStop, Recorded.outcome_mapStop,
              Simplex.outcome_twoPhase_mirror]
            cases (Simplex.twoPhase settings q).outcome <;> rfl
          exact Recorded.outcome_bind_map hrun fun s =>
            congrArg Except.ok (Answer.ofSolution_mirror s)

/-- **The simplex method answers alike on both programs.** -/
theorem outcome_simplexBackend_mirror (solves : ℕ) (bounds : List (Bound K)) :
    ((simplexBackend settings p.mirror).solve solves bounds).outcome =
      ((simplexBackend settings p).solve solves bounds).outcome.map (Prod.map Answer.mirror id) :=
  Recorded.outcome_bind_map (outcome_solveBounded_mirror settings p bounds) fun _ => rfl

end Relaxation

end BranchBound
