import BranchBound.Proofs.Search.FirstBest
import BranchBound.Proofs.Search.Turns

/-!
# The stream of snapshots

A snapshot is due when the number of explored nodes is a multiple of the frequency, and it is taken
at the end of the turn, after the incumbent was brought up to date.  So a search that has explored
`n` nodes has taken one for each multiple of the frequency up to `n`, and each tells the incumbent
of the state the search was in then (`Streams`).  Turns only make the incumbent harder to improve
on, so no snapshot is worse than the ones before it.

One turn keeps this (`Watched.turn`), so it holds wherever the loop stops and wherever it fails
(`Watched.grow`); the root and failing turns take no snapshot (`progress_stream`).

The share of the budget that a snapshot shows is computed in scalars.  Without rounding errors it is
the nearest percent (`Progress.share_eq`).
-/

namespace BranchBound

namespace Search

/-! ## The share of the budget -/

namespace Progress

/-- The share of every budget is computed as it is in rational numbers. -/
def SharesExactly (K : Type) [Scalar K] : Prop := ∀ e m, share K e m = share ℚ e m

/-- Rounded exactly, a quotient of counts goes to the nearest whole number. -/
theorem round_natCast_div (K : Type) [ExactScalar K] (e : ℕ) {m : ℕ} (hm : m ≠ 0) :
    ∃ k : ℕ, Scalar.round ((e : K) / m * ((100 : ℕ) : K)) = k ∧
      round (100 * e / m : ℚ) = (k : ℤ) := by
  have hpos : (0 : K) < m := by exact_mod_cast Nat.pos_of_ne_zero hm
  have hpos' : (0 : ℚ) < m := by exact_mod_cast Nat.pos_of_ne_zero hm
  have hnonneg : (0 : K) ≤ (e : K) / m * ((100 : ℕ) : K) := by positivity
  obtain ⟨z, hz, hle, hlt⟩ := ExactScalar.floor_spec ((e : K) / m * ((100 : ℕ) : K) + 1 / 2)
  -- the bounds of the floor, in whole numbers
  have hle' : z * (2 * m) ≤ 200 * e + m := by
    have : (z : K) * (2 * m) ≤ 200 * e + m := by
      calc (z : K) * (2 * m) ≤ ((e : K) / m * ((100 : ℕ) : K) + 1 / 2) * (2 * m) := by gcongr
        _ = 200 * e + m := by push_cast; field_simp; ring
    exact_mod_cast this
  have hlt' : 200 * e + m < (z + 1) * (2 * m) := by
    have : (200 : K) * e + m < (z + 1) * (2 * m) := by
      calc (200 : K) * e + m = ((e : K) / m * ((100 : ℕ) : K) + 1 / 2) * (2 * m) := by
            push_cast; field_simp; ring
        _ < (z + 1) * (2 * m) := by gcongr
    exact_mod_cast this
  have hzpos : 0 ≤ z := by
    by_contra hneg
    have : (z + 1) * (2 * (m : ℤ)) ≤ 0 := mul_nonpos_of_nonpos_of_nonneg (by omega) (by positivity)
    omega
  obtain ⟨k, rfl⟩ := Int.eq_ofNat_of_zero_le hzpos
  refine ⟨k, ?_, ?_⟩
  · rw [ExactScalar.round_eq, if_neg (not_lt.2 hnonneg), hz, Int.cast_natCast]
  · rw [round_eq, Int.floor_eq_iff]
    constructor
    · rw [← sub_le_iff_le_add, le_div_iff₀ hpos']
      have : ((k : ℤ) : ℚ) * (2 * m) ≤ 200 * e + m := by exact_mod_cast hle'
      linarith
    · rw [← lt_sub_iff_add_lt, div_lt_iff₀ hpos']
      have : (200 : ℚ) * e + m < ((k : ℤ) + 1) * (2 * m) := by exact_mod_cast hlt'
      linarith

/-- **Exact shares are nearest percents**, a half rounded up, and at most a hundred. -/
theorem share_eq (K : Type) [ExactScalar K] (e : ℕ) {m : ℕ} (hm : m ≠ 0) :
    (share K e m : ℤ) = min 100 (round (100 * e / m : ℚ)) := by
  obtain ⟨k, hk, hround⟩ := round_natCast_div K e hm
  have hmin : Scalar.smaller (k : K) ((100 : ℕ) : K) = ((min k 100 : ℕ) : K) := by
    rw [ExactScalar.smaller_eq, Nat.cast_min]
  have hfits : min k 100 < Word.bound 64 := (Nat.min_le_right k 100).trans_lt (by decide)
  rw [share, if_neg hm, hround]
  simp only [hk, hmin, ExactScalar.truncate_natCast hfits]
  rw [Nat.cast_min, min_comm]
  rfl

/-- Exact scalars share exactly. -/
theorem sharesExactly (K : Type) [ExactScalar K] : SharesExactly K := by
  intro e m
  by_cases hm : m = 0
  · simp [share, hm]
  · exact_mod_cast (share_eq K e hm).trans (share_eq ℚ e hm).symm

end Progress

variable {K : Type} [Scalar K] {σ : Type}

open Relaxation

variable {task : Task K σ} {b : σ} {s s' t : State K σ}

/-! ## Reports without snapshots -/

omit [Scalar K] in
theorem snapshots_append (es es' : List (Event K)) :
    snapshots (es ++ es') = snapshots es ++ snapshots es' := List.filterMap_append

omit [Scalar K] in
/-- The event is no snapshot. -/
def Event.IsQuiet (e : Event K) : Prop := snapshots [e] = []

omit [Scalar K] in
theorem snapshots_eq_nil {es : List (Event K)} (h : ∀ e ∈ es, e.IsQuiet) : snapshots es = [] := by
  induction es with
  | nil => rfl
  | cons e es ih =>
      obtain ⟨he, hes⟩ := List.forall_mem_cons.1 h
      rw [← List.singleton_append, snapshots_append, ih hes]
      exact List.append_eq_nil_iff.2 ⟨he, rfl⟩

omit [Scalar K] in
theorem quiet_report {e : Event K} (h : e.IsQuiet) :
    ∀ d ∈ (Recorded.report e : Run K Unit).events, d.IsQuiet := List.forall_mem_singleton.2 h

omit [Scalar K] in
theorem quiet_relax (task : Task K σ) (s : State K σ) (bounds : List (Bound K)) :
    ∀ e ∈ (relax task s bounds).events, e.IsQuiet := by
  refine Recorded.forall_events_bind (quiet_report rfl) fun _ _ => ?_
  refine Recorded.forall_events_bind ?_ fun _ _ => ?_
  · exact List.forall_mem_map.2 fun _ _ => rfl
  · exact Recorded.forall_events_bind (quiet_report rfl) fun _ _ => List.forall_mem_nil _

theorem quiet_classify (task : Task K σ) (s : State K σ) (id : ℕ) (v : K) (a : Answer K) :
    ∀ e ∈ (classify task s id v a).events, e.IsQuiet := by
  unfold classify
  split
  · exact List.forall_mem_nil _
  · split
    · split
      · exact quiet_report rfl
      · exact List.forall_mem_nil _
    · split <;> exact List.forall_mem_nil _
  · exact quiet_report rfl

theorem quiet_settleRoot (task : Task K σ) (s : State K σ) (a : Answer K) :
    ∀ e ∈ (settleRoot task s a).events, e.IsQuiet := by
  unfold settleRoot
  split
  · exact List.forall_mem_nil _
  · exact List.forall_mem_nil _
  · exact quiet_report rfl
  · split <;> exact quiet_report rfl

/-- Making the root takes no snapshot. -/
theorem snapshots_start (task : Task K σ) (b : σ) : snapshots (start task b).events = [] := by
  refine snapshots_eq_nil (Recorded.forall_events_bind (quiet_report rfl) fun _ _ => ?_)
  exact Recorded.forall_events_bind (quiet_relax _ _ _) fun _ _ => quiet_settleRoot _ _ _

variable [PlainText K]

theorem quiet_addChild (task : Task K σ) (p : Node K) (v : K) (s : State K σ) (bound : Bound K) :
    ∀ e ∈ (addChild task p v s bound).events, e.IsQuiet := by
  refine Recorded.forall_events_bind (quiet_relax _ _ _) fun _ _ => ?_
  refine Recorded.forall_events_bind (quiet_classify _ _ _ _ _) fun _ _ => ?_
  simp only
  split <;> exact List.forall_mem_nil _

/-- Processing a node takes no snapshot. -/
theorem snapshots_explore (task : Task K σ) (s : State K σ) (id : ℕ) :
    snapshots (explore task s id).events = [] := by
  refine snapshots_eq_nil (Recorded.forall_events_bind ?_ fun n _ => ?_)
  · rw [Recorded.events_ofExcept]
    exact List.forall_mem_nil _
  · simp only
    split
    · exact quiet_report rfl
    · split
      · exact quiet_report rfl
      · refine Recorded.forall_events_bind (quiet_report rfl) fun _ _ => ?_
        exact Recorded.forall_events_bind (quiet_addChild _ _ _ _ _) fun _ _ =>
          quiet_addChild _ _ _ _ _

/-- The snapshots due at the end of a turn that leads to this state: one if the number of explored
nodes is a multiple of the frequency, and otherwise none. -/
theorem snapshots_visit {id : ℕ} {rest : Frontier K}
    (h : (visit task s id rest).outcome = .ok s') :
    snapshots (visit task s id rest).events =
      if task.settings.progressEvery ∣ s.explored + 1 then
        [.snapshot s'.explored task.settings.maxNodes s'.incumbent.value?]
      else [] := by
  have hexplored := explored_of_visit h
  rw [outcome_visit] at h
  have hdue : (0 < task.settings.progressEvery ∧ s'.explored % task.settings.progressEvery = 0) ↔
      task.settings.progressEvery ∣ s.explored + 1 := by
    rw [hexplored, ← Nat.dvd_iff_mod_eq_zero, and_iff_right_iff_imp]
    exact fun hdvd => Nat.pos_of_dvd_of_pos hdvd (Nat.succ_pos _)
  rw [visit, Recorded.events_bind_ok h, snapshots_append, snapshots_explore, List.nil_append,
    snapshot]
  by_cases hdvd : task.settings.progressEvery ∣ s.explored + 1
  · rw [if_pos hdvd, if_pos (hdue.2 hdvd)]
    rfl
  · rw [if_neg hdvd, if_neg fun h => hdvd (hdue.1 h)]
    rfl

/-- A turn that fails takes no snapshot. -/
theorem snapshots_visit_error {id : ℕ} {rest : Frontier K} {reason : Breakdown}
    (h : (visit task s id rest).outcome = .error reason) :
    snapshots (visit task s id rest).events = [] := by
  rw [outcome_visit] at h
  rw [visit, Recorded.events_bind_error h, snapshots_explore]

/-! ## The incumbent from turn to turn -/

/-- What the incumbent keeps when a point with a value of the backend is offered, it keeps when a
node is processed. -/
theorem Processes.incumbent_keeps {motive : Incumbent K → Prop}
    (offer : ∀ {i x v}, motive i → v ∈ task.backend.values → motive (i.update x v))
    {id : ℕ} {n : Node K} (h : Processes task s id n s') (hs : motive s.incumbent) :
    motive s'.incumbent := by
  have hjoins : ∀ {p n : Node K} {v : K} {bound : Bound K} {a : Answer K} {s s₁ s' : State K σ},
      Joins task p v bound s s' n a s₁ → motive s.incumbent → motive s'.incumbent := by
    intro p n v bound a s s₁ s' h hs
    obtain ⟨⟨c, hsolve, hclassify⟩, -, rfl⟩ := h
    show motive s₁.incumbent
    obtain heq | ⟨w, hw, heq⟩ := hclassify.incumbent_cases
    · rwa [heq]
    · rw [heq]
      exact offer hs ⟨_, _, a, c, hsolve, hw⟩
  cases h with
  | closed _ => exact hs
  | kept _ _ => exact hs
  | split _ _ joinsLow joinsHigh => exact hjoins joinsHigh (hjoins joinsLow hs)

/-! ## Where the search stands -/

/-- After exactly `n` explorations the search is in this state. -/
structure StandsAt (task : Task K σ) (b : σ) (n : ℕ) (s : State K σ) : Prop where
  passes : Passes task b s
  explored_eq : s.explored = n

/-- A turn explores one node. -/
theorem Turn.explored_eq {n : Node K} (h : Turn task s n s') : s'.explored = s.explored + 1 := by
  obtain ⟨id, rest, -, -, hvisit⟩ := h.takes
  exact explored_of_visit hvisit

/-- The search explores no more nodes than its budget. -/
theorem Passes.explored_le (h : Passes task b s) : s.explored ≤ task.settings.maxNodes := by
  refine h.keeps (motive := fun s => s.explored ≤ task.settings.maxNodes)
    (fun hsolve hplants => ?_) fun _ _ hturn => ?_
  · obtain ⟨n, hrooted⟩ := hplants.rooted hsolve
    rw [hrooted.explored_eq]
    exact Nat.zero_le _
  · rw [hturn.explored_eq]
    exact hturn.budget

/-- No turns, or more nodes explored. -/
theorem Turns.eq_or_explored_lt (h : Turns task s t) : s = t ∨ s.explored < t.explored := by
  induction h with
  | refl => exact .inl rfl
  | tail _ hturn ih =>
      obtain ⟨n, hturn⟩ := hturn
      have hexplored := hturn.explored_eq
      obtain rfl | hlt := ih
      · exact .inr (by omega)
      · exact .inr (by omega)

/-- **After so many explorations the search is in one state only.** -/
theorem StandsAt.unique {n : ℕ} (h : StandsAt task b n s) (h' : StandsAt task b n t) : s = t := by
  obtain ⟨⟨s₀, hstart, hturns⟩, hs⟩ := h
  obtain ⟨⟨t₀, hstart', hturns'⟩, ht⟩ := h'
  obtain ⟨rfl, -⟩ := Prod.mk.inj (Except.ok.inj (hstart.symm.trans hstart'))
  -- a state has at most one turn, so one of the two states comes after the other
  have hunique : Relator.RightUnique fun s s' => ∃ n, Turn task s n s' := by
    rintro s s' s'' ⟨n, hturn⟩ ⟨n', hturn'⟩
    obtain ⟨id, rest, hpop, -, hvisit⟩ := hturn.takes
    obtain ⟨id', rest', hpop', -, hvisit'⟩ := hturn'.takes
    obtain ⟨rfl, rfl⟩ := Prod.mk.inj (Option.some.inj (hpop.symm.trans hpop'))
    exact Except.ok.inj (hvisit.symm.trans hvisit')
  obtain hst | hts := Relation.ReflTransGen.total_of_right_unique hunique hturns hturns'
  · exact (Turns.eq_or_explored_lt hst).resolve_right (by omega)
  · exact ((Turns.eq_or_explored_lt hts).resolve_right (by omega)).symm

/-! ## The stream -/

/-- The snapshots of a search that has explored `n` nodes: one for each multiple of the frequency,
none for the frequency zero, and each tells the incumbent after as many explorations.  An incumbent
stays, and no later one is worse. -/
structure Streams (task : Task K σ) (b : σ) (n : ℕ) (ps : List (Progress K)) : Prop where
  length_eq : ps.length = n / task.settings.progressEvery
  tells : ∀ j p, ps[j]? = some p →
    ∃ s, StandsAt task b ((j + 1) * task.settings.progressEvery) s ∧
      p = .snapshot ((j + 1) * task.settings.progressEvery) task.settings.maxNodes
        s.incumbent.value?
  improving : ps.Pairwise fun p q => ∀ v, p.best = some v →
    ∃ w, q.best = some w ∧ task.sense.improves v w = false

/-- Nothing was explored, and there are no snapshots. -/
theorem Streams.nil (task : Task K σ) (b : σ) : Streams task b 0 [] :=
  ⟨(Nat.zero_div _).symm, by simp, .nil⟩

/-- The search is at the head of its loop and has taken these snapshots.  Its incumbent has a value
of the backend, and no value of a snapshot can improve on it. -/
structure Watched (task : Task K σ) (b : σ) (s : State K σ) (ps : List (Progress K)) : Prop where
  passes : Passes task b s
  streams : Streams task b s.explored ps
  incumbent_mem : ∀ v, s.incumbent.value? = some v → v ∈ task.backend.values
  beaten : ∀ p ∈ ps, ∀ v, p.best = some v →
    v ∈ task.backend.values ∧ s.incumbent.canImprove v = false

namespace Watched

variable {ps : List (Progress K)}

/-- An open root has no incumbent and no snapshot. -/
theorem root (h : (start task b).outcome = .ok (s, .growing)) : Watched task b s [] := by
  obtain ⟨n, hrooted⟩ := start_cases h
  obtain ⟨a, c, -, hplants⟩ := start_plants h
  have hnone : s.incumbent.value? = none := by
    cases hplants
    rfl
  refine ⟨⟨s, h, .refl⟩, ?_, by simp [hnone], by simp⟩
  rw [hrooted.explored_eq]
  exact .nil task b

/-- What the snapshots tell the incumbent is not worse than. -/
theorem not_improves (h : Watched task b s ps) {p : Progress K} (hp : p ∈ ps) {v : K}
    (hv : p.best = some v) :
    ∃ w, s.incumbent.value? = some w ∧ task.sense.improves v w = false := by
  have hbeaten := canImprove_eq_false_iff.1 (h.beaten p hp v hv).2
  rwa [h.passes.aligned.incumbent_sense] at hbeaten

/-- **A turn takes its snapshot if one is due.** -/
theorem turn (hordered : Scalar.OrderedOn task.backend.values) (h : Watched task b s ps)
    {n : Node K} (hturn : Turn task s n s') {id : ℕ} {rest : Frontier K}
    (hvisit : (visit task s id rest).outcome = .ok s') :
    Watched task b s' (ps ++ snapshots (visit task s id rest).events) := by
  have hpasses := h.passes.turn hturn
  have hexplored := hturn.explored_eq
  -- what the snapshots so far tell stays beaten
  obtain ⟨hmem, hbeaten⟩ : (∀ v, s'.incumbent.value? = some v → v ∈ task.backend.values) ∧
      ∀ p ∈ ps, ∀ v, p.best = some v → s'.incumbent.canImprove v = false := by
    obtain ⟨e, rest', -, hvisits⟩ := hturn.visits h.passes
    refine hvisits.processes.incumbent_keeps
      (motive := fun i => (∀ v, i.value? = some v → v ∈ task.backend.values) ∧
        ∀ p ∈ ps, ∀ v, p.best = some v → i.canImprove v = false) ?_
      ⟨h.incumbent_mem, fun p hp v hv => (h.beaten p hp v hv).2⟩
    rintro i x w ⟨hmem, hbeaten⟩ hw
    refine ⟨fun v hv => ?_, fun p hp v hv => ?_⟩
    · rw [Incumbent.value?] at hv
      obtain heq | heq := best_update_cases i x w
      · exact hmem v (by rwa [heq] at hv)
      · obtain rfl : w = v := by simpa [heq] using hv
        exact hw
    · exact canImprove_update_eq_false hordered (h.beaten p hp v hv).1 hw hmem
        (hbeaten p hp v hv) x
  rw [snapshots_visit hvisit]
  by_cases hdue : task.settings.progressEvery ∣ s.explored + 1
  · rw [if_pos hdue]
    -- the number of explored nodes is the next multiple of the frequency
    have hnext : s'.explored = (ps.length + 1) * task.settings.progressEvery := by
      rw [hexplored, h.streams.length_eq, ← Nat.succ_div_of_dvd hdue]
      exact (Nat.div_mul_cancel hdue).symm
    have hself : ∀ v, s'.incumbent.value? = some v → s'.incumbent.canImprove v = false :=
      fun v hv => canImprove_eq_false_iff.2 ⟨v, hv, hordered.improves_self _ (hmem v hv)⟩
    refine ⟨hpasses, ⟨?_, fun j p hp => ?_, ?_⟩, hmem, fun p hp v hv => ?_⟩
    · rw [hexplored, Nat.succ_div_of_dvd hdue, List.length_append, h.streams.length_eq]
      rfl
    · obtain hold | ⟨rfl, rfl⟩ : ps[j]? = some p ∨ j = ps.length ∧
          p = .snapshot s'.explored task.settings.maxNodes s'.incumbent.value? := by
        rw [List.getElem?_append] at hp
        split at hp
        · exact .inl hp
        · rw [List.getElem?_singleton] at hp
          split at hp
          · exact .inr ⟨by omega, (Option.some.inj hp).symm⟩
          · cases hp
      · exact h.streams.tells j p hold
      · exact ⟨s', ⟨hpasses, hnext⟩, by rw [hnext]⟩
    · refine List.pairwise_append.2 ⟨h.streams.improving, List.pairwise_singleton _ _, ?_⟩
      intro p hp q hq v hv
      obtain rfl := List.mem_singleton.1 hq
      have hlater := canImprove_eq_false_iff.1 (hbeaten p hp v hv)
      rwa [hpasses.aligned.incumbent_sense] at hlater
    · rcases List.mem_append.1 hp with hp | hp
      · exact ⟨(h.beaten p hp v hv).1, hbeaten p hp v hv⟩
      · obtain rfl := List.mem_singleton.1 hp
        exact ⟨hmem v hv, hself v hv⟩
  · rw [if_neg hdue, List.append_nil]
    refine ⟨hpasses, ⟨?_, h.streams.tells, h.streams.improving⟩, hmem,
      fun p hp v hv => ⟨(h.beaten p hp v hv).1, hbeaten p hp v hv⟩⟩
    rw [hexplored, Nat.succ_div_of_not_dvd hdue]
    exact h.streams.length_eq

/-- Stopping takes no snapshot. -/
theorem stop (h : Watched task b s ps) : Watched task b s (ps ++ snapshots []) := by
  simpa [snapshots] using h

/-- **The loop goes on with the stream** until it stops or a turn fails. -/
theorem grow (hordered : Scalar.OrderedOn task.backend.values) {m : ℕ} (h : Watched task b s ps)
    (hbudget : s.explored + m = task.settings.maxNodes) :
    (∀ t limit, (grow task m s).outcome = .ok (t, limit) →
      Watched task b t (ps ++ snapshots (grow task m s).events)) ∧
    ∀ reason, (grow task m s).outcome = .error reason →
      ∃ t id rest, Watched task b t (ps ++ snapshots (grow task m s).events) ∧
        t.frontier.pop? = some (id, rest) ∧ (visit task t id rest).outcome = .error reason := by
  induction m generalizing s ps with
  | zero =>
      rw [Search.grow]
      cases s.frontier.pop? with
      | none => exact ⟨fun t limit ht => by cases ht; exact h.stop, fun reason hr => by cases hr⟩
      | some _ => exact ⟨fun t limit ht => by cases ht; exact h.stop, fun reason hr => by cases hr⟩
  | succ m ih =>
      rw [Search.grow]
      cases hpop : s.frontier.pop? with
      | none => exact ⟨fun t limit ht => by cases ht; exact h.stop, fun reason hr => by cases hr⟩
      | some popped =>
          obtain ⟨id, rest⟩ := popped
          simp only
          by_cases hlate : task.isLate (.beforeNode s.explored) = true
          · rw [if_pos hlate]
            exact ⟨fun t limit ht => by cases ht; exact h.stop, fun reason hr => by cases hr⟩
          · rw [if_neg hlate]
            cases hvisit : (visit task s id rest).outcome with
            | error reason =>
                rw [Recorded.events_bind_error hvisit, Recorded.outcome_bind, hvisit,
                  snapshots_visit_error hvisit, List.append_nil]
                refine ⟨fun _ _ ht => (by cases ht), fun reason' hr => ?_⟩
                obtain rfl := Except.error.inj hr
                exact ⟨s, id, rest, h, hpop, hvisit⟩
            | ok s₁ =>
                obtain ⟨n, hn, -⟩ := explore_processes ((outcome_visit id rest).symm.trans hvisit)
                have hturn : Turn task s n s₁ :=
                  ⟨by omega, Bool.eq_false_iff.2 hlate, id, rest, hpop, hn, hvisit⟩
                rw [Recorded.events_bind_ok hvisit, Recorded.outcome_bind, hvisit,
                  snapshots_append, ← List.append_assoc]
                exact ih (h.turn hordered hturn hvisit) (by rw [hturn.explored_eq]; omega)

end Watched

/-- The search failed: before it had explored a node, or in the turn after it had explored `n`. -/
def FailsAfter (task : Task K σ) (b : σ) (n : ℕ) (reason : Breakdown) : Prop :=
  ((start task b).outcome = .error reason ∧ n = 0) ∨
    ∃ s id rest, StandsAt task b n s ∧ s.frontier.pop? = some (id, rest) ∧
      (visit task s id rest).outcome = .error reason

/-- **A search takes its snapshots one by one as it goes**, whether it comes to an end or fails. -/
theorem run_streams (hordered : Scalar.OrderedOn task.backend.values) :
    (∀ s limit, (run task b).outcome = .ok (s, limit) →
      Streams task b s.explored (snapshots (run task b).events) ∧
      ∀ p ∈ snapshots (run task b).events, ∀ v, p.best = some v →
        ∃ w, s.incumbent.value? = some w ∧ task.sense.improves v w = false) ∧
    ∀ reason, (run task b).outcome = .error reason →
      ∃ n, Streams task b n (snapshots (run task b).events) ∧ FailsAfter task b n reason := by
  rw [run]
  cases hstart : (start task b).outcome with
  | error reason =>
      rw [Recorded.events_bind_error hstart, Recorded.outcome_bind, hstart, snapshots_start]
      refine ⟨fun _ _ h => (by cases h), fun reason' h => ?_⟩
      obtain rfl := Except.error.inj h
      exact ⟨0, .nil task b, .inl ⟨hstart, rfl⟩⟩
  | ok started =>
      obtain ⟨s, st⟩ := started
      obtain ⟨n, hrooted⟩ := start_cases hstart
      rw [Recorded.events_bind_ok hstart, Recorded.outcome_bind, hstart, snapshots_append,
        snapshots_start, List.nil_append]
      cases st with
      | settled =>
          refine ⟨fun s' limit h => ?_, fun _ h => (by cases h)⟩
          obtain ⟨rfl, -⟩ := Prod.mk.inj (Except.ok.inj h)
          rw [hrooted.explored_eq]
          exact ⟨.nil task b, List.forall_mem_nil _⟩
      | growing =>
          obtain ⟨hstops, hfails⟩ := (Watched.root hstart).grow hordered
            (m := task.settings.maxNodes) (by rw [hrooted.explored_eq, Nat.zero_add])
          refine ⟨fun t limit h => ?_, fun reason h => ?_⟩
          · have hwatched := hstops t limit h
            exact ⟨hwatched.streams, fun p hp v hv => hwatched.not_improves hp hv⟩
          · obtain ⟨t, id, rest, hwatched, hpop, hvisit⟩ := hfails reason h
            exact ⟨t.explored, hwatched.streams,
              .inr ⟨t, id, rest, ⟨hwatched.passes, rfl⟩, hpop, hvisit⟩⟩

/-- Stating the result takes no snapshot. -/
theorem snapshots_solve (task : Task K σ) (b : σ) :
    snapshots (solve task b).events = snapshots (run task b).events := by
  rw [solve]
  cases hrun : (run task b).outcome with
  | error reason => rw [Recorded.events_bind_error hrun]
  | ok ended =>
      rw [Recorded.events_bind_ok hrun, snapshots_append]
      exact List.append_nil _

/-- The percent that the `j`-th snapshot of a stream shows if shares are computed exactly, counted
from zero. -/
def Task.percentAt (task : Task K σ) (j : ℕ) : ℤ :=
  min 100 (round (100 * ((j + 1) * task.settings.progressEvery : ℕ) / task.settings.maxNodes : ℚ))

omit [Scalar K] [PlainText K] in
/-- Later snapshots do not show less. -/
theorem Task.percentAt_mono (task : Task K σ) {i j : ℕ} (hij : i ≤ j) :
    task.percentAt i ≤ task.percentAt j := by
  refine min_le_min_left 100 ?_
  rw [round_eq, round_eq]
  gcongr

/-- **Exactly computed shares are nearest percents.** -/
theorem Streams.percent_eq {n : ℕ} {ps : List (Progress K)} (h : Streams task b n ps)
    (hshares : Progress.SharesExactly K) {j : ℕ} {p : Progress K} (hp : ps[j]? = some p) :
    p.percent = task.percentAt j := by
  obtain ⟨s, ⟨hpasses, hexplored⟩, rfl⟩ := h.tells j p hp
  have hbudget : task.settings.maxNodes ≠ 0 := by
    -- with no budget nothing is explored, and the frequency is not zero
    intro hzero
    have hle := hpasses.explored_le
    rw [hexplored, hzero, Nat.le_zero, Nat.mul_eq_zero] at hle
    have hlt := (List.getElem?_eq_some_iff.1 hp).1
    rw [h.length_eq, hle.resolve_left (Nat.succ_ne_zero j), Nat.div_zero] at hlt
    exact absurd hlt (Nat.not_lt_zero j)
  show (Progress.share K _ _ : ℤ) = _
  rw [hshares, Progress.share_eq ℚ _ hbudget]
  rfl

/-- **The stream of snapshots.**  If the values of the backend come from a linear order, then a
search that returns a result has taken one snapshot for each multiple of the frequency up to the
number of explored nodes, and none for the frequency zero.  The one for `m` explored nodes tells the
incumbent of the state in which the search was after exactly `m` explorations; once there is an
incumbent there always is one, none is better than a later one, and none is better than the result.
If shares are computed exactly, each shows the nearest percent of the budget, and they never go
down.  If the search fails, this holds up to the exploration that fails. -/
theorem progress_stream (hordered : Scalar.OrderedOn task.backend.values) :
    ∃ n, Streams task b n (snapshots (solve task b).events) ∧
      (task.settings.progressEvery = 0 → snapshots (solve task b).events = []) ∧
      (∀ m s t, StandsAt task b m s → StandsAt task b m t → s = t) ∧
      (∀ solution, (solve task b).outcome = .ok solution → n = solution.explored ∧
        ∀ p ∈ snapshots (solve task b).events, ∀ v, p.best = some v →
          ∃ w, solution.value = some w ∧ task.sense.improves v w = false) ∧
      (∀ reason, (solve task b).outcome = .error reason → FailsAfter task b n reason) ∧
      (Progress.SharesExactly K →
        (∀ j p, (snapshots (solve task b).events)[j]? = some p → p.percent = task.percentAt j) ∧
        (snapshots (solve task b).events).Pairwise fun p q => p.percent ≤ q.percent) := by
  obtain ⟨hends, hfails⟩ := run_streams (b := b) hordered
  -- the number of explored nodes goes by how the search ends
  obtain ⟨n, hstreams, hok, herror⟩ : ∃ n, Streams task b n (snapshots (solve task b).events) ∧
      (∀ solution, (solve task b).outcome = .ok solution → n = solution.explored ∧
        ∀ p ∈ snapshots (solve task b).events, ∀ v, p.best = some v →
          ∃ w, solution.value = some w ∧ task.sense.improves v w = false) ∧
      ∀ reason, (solve task b).outcome = .error reason → FailsAfter task b n reason := by
    rw [snapshots_solve]
    cases hrun : (run task b).outcome with
    | error reason =>
        have hsolve : (solve task b).outcome = .error reason := by
          rw [solve, Recorded.outcome_bind, hrun]
          rfl
        obtain ⟨n, hstreams, hafter⟩ := hfails reason hrun
        refine ⟨n, hstreams, fun solution h => ?_, fun reason' h => ?_⟩
        · cases hsolve.symm.trans h
        · obtain rfl := Except.error.inj (hsolve.symm.trans h)
          exact hafter
    | ok ended =>
        obtain ⟨s, limit⟩ := ended
        have hsolve := solve_eq_ok_iff.2 ⟨s, limit, hrun, rfl⟩
        obtain ⟨hstreams, hvalues⟩ := hends s limit hrun
        refine ⟨s.explored, hstreams, fun solution h => ?_, fun reason h => ?_⟩
        · obtain rfl := Except.ok.inj (hsolve.symm.trans h)
          exact ⟨rfl, hvalues⟩
        · cases hsolve.symm.trans h
  refine ⟨n, hstreams, fun hzero => ?_, fun m s t => StandsAt.unique, hok, herror,
    fun hshares => ⟨fun j p hp => hstreams.percent_eq hshares hp, ?_⟩⟩
  · rw [← List.length_eq_zero_iff, hstreams.length_eq, hzero, Nat.div_zero]
  · rw [List.pairwise_iff_getElem]
    intro i j hi hj hij
    have hle := task.percentAt_mono hij.le
    rw [← hstreams.percent_eq hshares (List.getElem?_eq_getElem hi),
      ← hstreams.percent_eq hshares (List.getElem?_eq_getElem hj)] at hle
    exact_mod_cast hle

/-- Settings for a budget of seven nodes, with a snapshot after every other one. -/
def everyOther : Settings ℚ := { halvesSettings with maxNodes := 7, progressEvery := 2 }

/-- The search of `knapsack` explores four nodes and takes two snapshots.  The second one shows the
optimum, and a little more than half of the budget. -/
theorem knapsack_progress_stream :
    Scalar.OrderedOn (knapsack.task everyOther fun _ => 0).backend.values ∧
    snapshots (solve (knapsack.task everyOther fun _ => 0) 0).events =
      [⟨2, some 39, 29⟩, ⟨4, some 40, 57⟩] ∧
    ∃ n, Streams (knapsack.task everyOther fun _ => 0) 0 n [⟨2, some 39, 29⟩, ⟨4, some 40, 57⟩] ∧
      (knapsack.task everyOther fun _ => 0).percentAt 0 = 29 ∧
      ∃ solution, (solve (knapsack.task everyOther fun _ => 0) 0).outcome = .ok solution ∧
        solution.explored = n := by
  have hordered : Scalar.OrderedOn (knapsack.task everyOther fun _ => 0).backend.values :=
    ExactScalar.orderedOn _
  have heval : snapshots (solve (knapsack.task everyOther fun _ => 0) 0).events =
      [⟨2, some 39, 29⟩, ⟨4, some 40, 57⟩] := by
    decide +kernel
  have hsolve : (solve (knapsack.task everyOther fun _ => 0) 0).outcome.map
      (fun solution => solution.value) = .ok (some 40) := by
    decide +kernel
  obtain ⟨solution, hout, -⟩ := exists_of_map_eq_ok hsolve
  obtain ⟨n, hstreams, -, -, hok, -, hpercent⟩ := progress_stream (b := 0) hordered
  rw [heval] at hstreams hpercent
  refine ⟨hordered, heval, n, hstreams, ?_, solution, hout, ((hok solution hout).1).symm⟩
  exact ((hpercent (Progress.sharesExactly ℚ)).1 0 _ rfl).symm

end Search

end BranchBound
