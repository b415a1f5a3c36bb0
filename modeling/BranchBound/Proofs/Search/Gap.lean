import BranchBound.Proofs.Search.Limits

/-!
# What a gap of zero means

The gap compares the bound of the last state with the incumbent.  The bound is the incumbent's own
value exactly if no open node and no stalled subtree can improve on it
(`State.bestBound?_eq_incumbent`), and otherwise it is strictly better
(`State.improves_bestBound?`).  So a proven optimum has the gap zero, but the gap is zero in two
other cases as well (`gap_eq_zero_iff`): if the bound lies so close to zero that no gap relative to
it is formed (`NearZero`), and if a limit stopped the search while nothing open could improve on the
incumbent.  Each of them occurs (`gap_zero_unproven`).
-/

namespace BranchBound

variable {K : Type} [ExactScalar K] {σ : Type}

namespace Search

/-! ## Relative gaps -/

/-- No gap is formed relative to a value this close to zero. -/
def NearZero {K : Type} [Scalar K] (reference : K) : Prop := Scalar.abs reference ≤ (1e-10 : K)

instance (reference : K) : Decidable (NearZero reference) :=
  inferInstanceAs (Decidable (Scalar.abs reference ≤ (1e-10 : K)))

/-- **The gap is zero relative to a value near zero and between equal values**, and otherwise it is
not. -/
theorem relativeGap_eq_zero_iff (htol : (0 : K) ≤ (1e-10 : K)) (a b : K) :
    relativeGap a b = 0 ↔ NearZero a ∨ a = b := by
  have hgap : relativeGap a b =
      if NearZero a then 0 else Scalar.abs (a - b) / Scalar.abs a * ((100 : ℕ) : K) := by
    rw [relativeGap, ExactScalar.isFinite_eq, ExactScalar.isFinite_eq]
    rfl
  rw [hgap]
  by_cases hnear : NearZero a
  · simp [hnear]
  · have hpos : Scalar.abs a ≠ 0 := fun hzero => hnear (by rw [NearZero, hzero]; exact htol)
    have habs : Scalar.abs (a - b) = 0 ↔ a = b := by
      rw [ExactScalar.abs_eq, show max (a - b) (-(a - b)) = |a - b| from rfl, abs_eq_zero,
        sub_eq_zero]
    simp [hnear, hpos, habs]

/-! ## The bound and the incumbent -/

variable {task : Task K σ} {s : State K σ} {x : List K} {v : K}

/-- Nothing open or stalled can improve on the value. -/
structure Settled (sense : Sense) (s : State K σ) (v : K) : Prop where
  opened : ∀ e ∈ s.frontier.entries, sense.improves e.value v = false
  stalled : ∀ w, s.stalledBound = some w → sense.improves w v = false

/-- The frontier's bound cannot improve on a value exactly if none of its entries can. -/
theorem Frontier.bestBound?_not_improves_iff (f : Frontier K) (v : K) :
    (∀ w, f.bestBound? = some w → f.sense.improves w v = false) ↔
      ∀ e ∈ f.entries, f.sense.improves e.value v = false := by
  unfold bestBound?
  cases hextract : extract f.sense f.entries with
  | none => simp [extract_eq_none_iff.1 hextract]
  | some r =>
      constructor
      · intro h e he
        have hbest := h r.1.value rfl
        rw [Sense.improves_eq_false_iff] at hbest ⊢
        exact hbest.trans (cost_extract_le hextract e he)
      · rintro h w hw
        obtain rfl := Option.some.inj hw
        exact h r.1 ((extract_perm hextract).mem_iff.2 List.mem_cons_self)

namespace State

variable (haligned : Aligned task s) (hbest : s.incumbent.best = some (x, v))
include haligned hbest

/-- No open or stalled value counts exactly if all is settled. -/
theorem openBounds_eq_nil_iff :
    (s.frontier.bestBound?.toList ++ s.stalledBound.toList).filter s.incumbent.canImprove = [] ↔
      Settled task.sense s v := by
  have himprove : ∀ w, s.incumbent.canImprove w = task.sense.improves w v := by
    intro w
    rw [Incumbent.canImprove, hbest, haligned.incumbent_sense]
  have hfrontier := s.frontier.bestBound?_not_improves_iff v
  rw [haligned.frontier_sense] at hfrontier
  rw [List.filter_eq_nil_iff]
  constructor
  · intro h
    refine ⟨hfrontier.1 fun w hw => ?_, fun w hw => ?_⟩
    · simpa [himprove] using h w (by simp [hw])
    · simpa [himprove] using h w (by simp [hw])
  · intro h w hw
    rw [himprove, Bool.not_eq_true]
    rcases List.mem_append.1 hw with hw | hw
    · exact hfrontier.2 h.opened w (Option.mem_toList.1 hw)
    · exact h.stalled w (Option.mem_toList.1 hw)

/-- **The bound is the incumbent's own value** if nothing open or stalled can improve on it. -/
theorem bestBound?_eq_incumbent (h : Settled task.sense s v) :
    s.bestBound? task.sense = some v := by
  have hnil := (openBounds_eq_nil_iff haligned hbest).2 h
  rw [bestBound?, hnil]
  show s.incumbent.best.map Prod.snd = some v
  rw [hbest]
  rfl

/-- No stalled subtree is open exactly if none can improve on the value. -/
theorem stallIsOpen_eq_false_iff :
    s.stallIsOpen = false ↔ ∀ w, s.stalledBound = some w → task.sense.improves w v = false := by
  unfold stallIsOpen
  cases s.stalledBound <;> simp [Incumbent.canImprove, hbest, haligned.incumbent_sense]

/-- **The bound is better than the incumbent** unless all is settled. -/
theorem improves_bestBound? (h : ¬ Settled task.sense s v) :
    ∃ bound, s.bestBound? task.sense = some bound ∧ task.sense.improves bound v = true := by
  rw [← openBounds_eq_nil_iff haligned hbest] at h
  obtain ⟨a, bs, hbounds⟩ := List.exists_cons_of_ne_nil h
  have hmem : bs.foldl (betterOf task.sense) a ∈
      (s.frontier.bestBound?.toList ++ s.stalledBound.toList).filter s.incumbent.canImprove := by
    rw [hbounds]
    exact foldl_betterOf_mem task.sense a bs
  have himproves := (List.mem_filter.1 hmem).2
  rw [Incumbent.canImprove, hbest, haligned.incumbent_sense] at himproves
  exact ⟨_, by rw [bestBound?, hbounds], himproves⟩

/-- **There is a bound, and it is the incumbent's own value exactly if all is settled.** -/
theorem exists_bestBound? :
    ∃ bound, s.bestBound? task.sense = some bound ∧ (bound = v ↔ Settled task.sense s v) := by
  by_cases hall : Settled task.sense s v
  · exact ⟨v, bestBound?_eq_incumbent haligned hbest hall, iff_of_true rfl hall⟩
  · obtain ⟨bound, hbound, himproves⟩ := improves_bestBound? haligned hbest hall
    refine ⟨bound, hbound, iff_of_false ?_ hall⟩
    rintro rfl
    rw [Sense.improves_iff] at himproves
    exact lt_irrefl _ himproves

end State

/-! ## The gap of a result -/

/-- Where a search has ended, the incumbent is proven optimal exactly if no limit stopped the search
and all is settled. -/
theorem status_finish_eq_optimal_iff {limit : Option Limit} (haligned : Aligned task s)
    (hhalts : Halts task s limit) (hbest : s.incumbent.best = some (x, v)) :
    (finish task s limit).status = .optimal ↔ limit = none ∧ Settled task.sense s v := by
  have hsome : s.incumbent.hasSolution = true := by
    rw [Incumbent.hasSolution, hbest]
    rfl
  show Status.ofLimit (finalLimit s limit) s.incumbent.hasSolution = .optimal ↔ _
  rw [hsome]
  cases hhalts with
  | exhausted hnone =>
      have hsettled : Settled task.sense s v ↔ s.stallIsOpen = false := by
        rw [State.stallIsOpen_eq_false_iff haligned hbest]
        exact ⟨fun h => h.stalled, fun h => ⟨by simp [hnone], h⟩⟩
      rw [hsettled]
      cases hopen : s.stallIsOpen <;> simp [finalLimit, hopen, Status.ofLimit]
  | budget _ _ => simp [finalLimit, Status.ofLimit]
  | late _ _ => simp [finalLimit, Status.ofLimit]

/-- All is settled exactly if no open node of the tree and no stalled subtree can improve on the
value. -/
theorem settled_iff (haligned : Aligned task s) (hwell : WellFormed task s)
    (hopen : BranchesOpen s none) (hbest : s.incumbent.best = some (x, v)) :
    Settled task.sense s v ↔ s.stallIsOpen = false ∧ ∀ n ∈ s.tree.nodes,
      n.IsOpenIn s.tree.nodes →
        task.sense.improves (n.value.getD task.sense.worstValue) v = false := by
  rw [State.stallIsOpen_eq_false_iff haligned hbest]
  constructor
  · refine fun h => ⟨h.stalled, fun n hn hisOpen => ?_⟩
    obtain ⟨i, hi⟩ := Tree.mem_nodes_iff.1 hn
    have hid := hwell.id_eq hi
    obtain ⟨e, he, rfl⟩ := hopen i n hi hisOpen.1 (hid ▸ hisOpen.2) (by simp)
    obtain ⟨m, hm, hvalue⟩ := haligned.entry_value e he
    obtain rfl := Option.some.inj (hi.symm.trans hm)
    exact hvalue ▸ h.opened e he
  · rintro ⟨hstalled, hnodes⟩
    refine ⟨fun e he => ?_, hstalled⟩
    obtain ⟨n, hn, hvalue⟩ := haligned.entry_value e he
    obtain ⟨⟨m, hm, hkind⟩, hleaf⟩ := hwell.opened e he
    obtain rfl := Option.some.inj (hn.symm.trans hm)
    rw [hvalue]
    exact hnodes n (Tree.mem_nodes_iff.2 ⟨e.id, hn⟩) ⟨hkind, (hwell.id_eq hn).symm ▸ hleaf⟩

/-- The gap of a result is zero exactly if its bound is near zero or the incumbent's own value. -/
theorem gap_finish_eq_zero_iff {s : State ℚ σ} {x : List ℚ} {v bound : ℚ} {task : Task ℚ σ}
    (limit : Option Limit) (hbest : s.incumbent.best = some (x, v))
    (hbound : s.bestBound? task.sense = some bound) :
    (finish task s limit).gap = 0 ↔ NearZero bound ∨ bound = v := by
  have heq : (finish task s limit).gap = relativeGap bound v := by
    show s.gap task.sense = _
    rw [State.gap, hbound, Incumbent.value?, hbest]
    rfl
  rw [heq]
  exact relativeGap_eq_zero_iff (by norm_num) bound v

/-- A result names budget or time as its limit exactly if one of them stopped the search. -/
theorem limit_finish_iff {limit : Option Limit} (hhalts : Halts task s limit) :
    (finish task s limit).limit = some .nodes ∨ (finish task s limit).limit = some .time ↔
      limit ≠ none := by
  show finalLimit s limit = some .nodes ∨ finalLimit s limit = some .time ↔ _
  cases hhalts <;> simp [finalLimit]

/-- **When the gap is zero.**  Whatever the backend, the settings and the clock, a result with an
incumbent has the gap zero exactly if the incumbent is proven optimal, or the bound is near zero, or
budget or time stopped the search while no open node and no stalled subtree could improve on the
incumbent. -/
theorem gap_eq_zero_iff (task : Task ℚ σ) (b : σ) {solution : Solution ℚ}
    (h : (solve task b).outcome = .ok solution) {v : ℚ} (hv : solution.value = some v) :
    ∃ s limit bound, (run task b).outcome = .ok (s, limit) ∧ solution = finish task s limit ∧
      s.bestBound? task.sense = some bound ∧
      (solution.gap = 0 ↔ solution.status = .optimal ∨ NearZero bound ∨
        (solution.limit = some .nodes ∨ solution.limit = some .time) ∧ s.stallIsOpen = false ∧
          ∀ n ∈ solution.tree, n.IsOpenIn solution.tree →
            task.sense.improves (n.value.getD task.sense.worstValue) v = false) := by
  obtain ⟨s, limit, hrun, rfl⟩ := solve_eq_ok_iff.1 h
  obtain ⟨hwell, -, hhalts⟩ := run_keeps (motive := fun _ => True) (fun _ _ => trivial)
    (fun _ _ _ _ => trivial) hrun
  have haligned := run_aligned hrun
  have hopen := run_branchesOpen hrun
  obtain ⟨⟨x, v'⟩, hbest, rfl⟩ := Option.map_eq_some_iff.1 hv
  obtain ⟨bound, hbound, heq⟩ := State.exists_bestBound? haligned hbest
  refine ⟨s, limit, bound, hrun, rfl, hbound, ?_⟩
  rw [gap_finish_eq_zero_iff limit hbest hbound, heq, limit_finish_iff hhalts,
    status_finish_eq_optimal_iff haligned hhalts hbest]
  -- what the open nodes and the stalled subtrees say is that all is settled
  refine Iff.trans ?_ (or_congr_right (or_congr_right (and_congr_right fun _ =>
    settled_iff haligned hwell hopen hbest)))
  by_cases hnone : limit = none
  · simp [hnone, or_comm]
  · simp [hnone]

/-- The search of `halves` ends with a proven optimum and the gap zero. -/
theorem halves_gap_eq_zero :
    ∃ solution, (solve (halves.task halvesSettings fun _ => 0) 0).outcome = .ok solution ∧
      solution.value = some 1 ∧ solution.status = .optimal ∧ solution.gap = 0 := by
  have heval : (solve (halves.task halvesSettings fun _ => 0) 0).outcome.map
      (fun solution => (solution.value, solution.status)) = .ok (some 1, .optimal) := by
    decide +kernel
  obtain ⟨solution, hout, heq⟩ := exists_of_map_eq_ok heval
  obtain ⟨hvalue, hstatus⟩ := Prod.mk.inj heq
  obtain ⟨s, limit, bound, -, -, -, hgap⟩ := gap_eq_zero_iff _ 0 hout hvalue
  exact ⟨solution, hout, hvalue, hstatus, hgap.2 (.inl hstatus)⟩

/-! ## Gaps of zero without a proof -/

/-- The standard settings with a budget of one node. -/
def oneNode : Settings ℚ := { (Settings.standard : Settings ℚ) with maxNodes := 1 }

/-- Maximize `x₁ - 3 x₂` under `x₁ - x₂ ≤ 1` and `2 x₁ + 3 x₂ ≥ 3`.  After one node the incumbent
has the value `-1`, and the open node the value `0`. -/
def boundAtZero : IntegerProgram ℚ := .ofParts [1, -3] [[1, -1], [-2, -3]] [1, -3] true

/-- Minimize `x₁ + 2 x₂` under `2 x₁ + 2 x₂ ≥ 1`.  After one node the incumbent has the value `1`,
and so has the open node. -/
def boundReached : IntegerProgram ℚ := .ofParts [1, 2] [[-2, -2]] [-1] false

/-- **A gap of zero is no proof of optimality.**  With a budget of one node both searches end with
an incumbent and the gap zero, but not with a proven optimum: the one because the bound is zero, the
other because the limit comes before the open node is closed. -/
theorem gap_zero_unproven :
    (∃ solution, (solve (boundAtZero.task oneNode fun _ => 0) 0).outcome = .ok solution ∧
      solution.value = some (-1) ∧ solution.gap = 0 ∧ solution.status = .feasibleNotProven) ∧
    ∃ solution, (solve (boundReached.task oneNode fun _ => 0) 0).outcome = .ok solution ∧
      solution.value = some 1 ∧ solution.gap = 0 ∧ solution.status = .feasibleNotProven := by
  have hzero : (solve (boundAtZero.task oneNode fun _ => 0) 0).outcome.map
      (fun solution => (solution.value, solution.gap, solution.status)) =
        .ok (some (-1), 0, .feasibleNotProven) := by
    decide +kernel
  have hreached : (solve (boundReached.task oneNode fun _ => 0) 0).outcome.map
      (fun solution => (solution.value, solution.gap, solution.status)) =
        .ok (some 1, 0, .feasibleNotProven) := by
    decide +kernel
  obtain ⟨solution, hout, heq⟩ := exists_of_map_eq_ok hzero
  obtain ⟨solution', hout', heq'⟩ := exists_of_map_eq_ok hreached
  exact ⟨⟨solution, hout, by simpa using heq⟩, solution', hout', by simpa using heq'⟩

end Search

end BranchBound
