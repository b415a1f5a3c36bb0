import BranchBound.Proofs.Search.Validity

/-!
# Exactness of the solver

With the simplex method as backend and zero tolerances throughout, the verdicts of a search are
about the integer program itself: points are whole numbers, and nothing better is overlooked.
-/

namespace BranchBound

variable {K : Type} [ExactScalar K] [PlainText K]

open Search

namespace IntegerProgram

variable {p : IntegerProgram K} {settings : Search.Settings K} {clock : Clock}

omit [PlainText K] in
/-- With tolerance zero a candidate is a feasible point of whole numbers. -/
theorem feasible_of_candidate {task : Task K ℕ} (htol : task.settings.integralityTol = 0)
    {x : List K} {v : K} (h : Candidate task p x v) : p.Feasible x where
  relaxed := h.feasible
  whole := isWhole_of_isIntegral (htol ▸ h.integral)

/-- **The verdicts of the solver hold of the integer program.**  With exact arithmetic and zero
tolerances, whatever the rules, the limits and the clock: a point reported as optimal is a feasible
point of whole numbers with the reported value, and no other is better; a point reported as
feasible is one; and if infeasibility is reported and no relaxation ended without a verdict, there
is none. -/
theorem solve_exact (hcheck : p.check = .ok ()) (htol : settings.integralityTol = 0)
    (hlinear : settings.linear.IsExact) {solution : Search.Solution K}
    (h : (p.solve settings clock).outcome = .ok solution) :
    (solution.status = .optimal → ∃ x v, solution.x = some x ∧ solution.value = some v ∧
      p.Feasible x ∧ v = p.valueAt x ∧
        ∀ y, p.Feasible y → p.sense.improves (p.valueAt y) v = false) ∧
    (solution.status = .feasibleNotProven → ∃ x v, solution.x = some x ∧
      solution.value = some v ∧ p.Feasible x ∧ v = p.valueAt x) ∧
    (solution.status = .infeasible → solution.stalled = 0 → ∀ y, ¬ p.Feasible y) := by
  rw [IntegerProgram.solve, hcheck] at h
  have hsound := Relaxation.simplexBackend_isSound (p.relaxation.check_eq_ok_iff.1 hcheck) hlinear
  have hsense : (p.task settings clock).sense = p.sense := rfl
  obtain ⟨s, limit, a, b', rfl, -, hended⟩ := solve_spec hsense hsound h
  refine ⟨fun hstatus => ?_, fun hstatus => ?_, fun hstatus hstalled => ?_⟩
  · obtain ⟨x, v, hbest, hcand, hmax⟩ := hended.optimal hstatus
    exact ⟨x, v, congrArg (Option.map Prod.fst) hbest, congrArg (Option.map Prod.snd) hbest,
      feasible_of_candidate htol hcand, hcand.value_eq, hmax⟩
  · obtain ⟨x, v, hbest, hcand⟩ := hended.candidate (by rw [hstatus]; rfl)
    exact ⟨x, v, congrArg (Option.map Prod.fst) hbest, congrArg (Option.map Prod.snd) hbest,
      feasible_of_candidate htol hcand, hcand.value_eq⟩
  · refine hended.infeasible (fun hroot => ?_) hstatus
    -- a root without a verdict counts as stalled
    have hone : s.stalled = 1 := (hended.stalled hroot).1
    have hzero : s.stalled = 0 := hstalled
    omega

/-- The solver finds `(1, 0)` for `halves`, and no point of whole numbers is better. -/
theorem halves_solve_exact :
    halves.check = .ok () ∧ halvesSettings.integralityTol = 0 ∧ halvesSettings.linear.IsExact ∧
    ∃ solution, (halves.solve halvesSettings fun _ => 0).outcome = .ok solution ∧
      solution.status = .optimal ∧ solution.x = some [1, 0] ∧ halves.Feasible [1, 0] ∧
        ∀ y, halves.Feasible y → halves.sense.improves (halves.valueAt y) 1 = false := by
  have hlinear : halvesSettings.linear.IsExact :=
    LinearProgram.Settings.isExact_exact .dantzig 100
  have heval : (halves.solve halvesSettings fun _ => 0).outcome.map
      (fun solution => (solution.status, solution.x, solution.value)) =
        .ok (.optimal, some [1, 0], some 1) := by
    decide +kernel
  obtain ⟨solution, hout, heq⟩ := exists_of_map_eq_ok heval
  obtain ⟨hstatus, heq⟩ := Prod.mk.inj heq
  obtain ⟨hx, hvalue⟩ := Prod.mk.inj heq
  obtain ⟨x, v, hx', hv', hfeas, -, hmax⟩ :=
    (solve_exact (p := halves) rfl rfl hlinear hout).1 hstatus
  obtain rfl := Option.some.inj (hx.symm.trans hx')
  obtain rfl := Option.some.inj (hvalue.symm.trans hv')
  exact ⟨rfl, rfl, hlinear, solution, hout, hstatus, hx, hfeas, hmax⟩

end IntegerProgram

end BranchBound
