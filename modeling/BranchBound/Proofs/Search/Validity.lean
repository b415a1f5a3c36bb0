import BranchBound.Proofs.Search.Invariant

/-!
# Validity of the bound at every moment

The states in which a search looks for the next node are those it reaches from an open root by
visiting one node after the other (`AtLoopHead`); limits only decide where it stops (`Stops`), and
what the root has and every visit keeps holds there too (`run_induction`).  In each of these states,
and at the end, no feasible point of whole numbers is better than the bound, and without a bound
there is no such point (`bound_valid`).

The verdict follows: a search that ends without a limit accounts for every point by the incumbent
(`Ended.optimal`, `Ended.infeasible`).
-/

namespace BranchBound

variable {K : Type} [ExactScalar K] [PlainText K] {σ : Type}

namespace Search

open Relaxation

variable {task : Task K σ} {p : IntegerProgram K} {s s' : State K σ}

/-! ## One node -/

/-- **Processing a node accounts for all points within its bounds.** -/
theorem Processes.continues (hsense : task.sense = p.sense)
    (hsound : task.backend.IsSound p.relaxation) (hv : Valid task p s) {id : ℕ} {n : Node K}
    {value : K} (hopen : OpenNode task p n value) (h : Processes task s id n s') :
    Continues task p s s' ∧ ∀ y, p.Feasible y → Within n.bounds y → Accounted p s' y := by
  have hvalue : n.value.getD task.sense.worstValue = value := by rw [hopen.value_eq]; rfl
  cases h with
  | closed himproves =>
      -- the incumbent is at least as good as the node's value
      refine ⟨⟨⟨hv.frontier_sense, hv.incumbent_sense, fun e he => ?_, hv.incumbent⟩,
        ⟨fun hm => ⟨_, node?_close_of_eq hm id, rfl, rfl, rfl⟩, fun _ he => he, fun hc => hc,
          fun hc => hc⟩⟩, fun y hy hwithin => .inr (.inr ?_)⟩
      · obtain ⟨m, hm, hopen'⟩ := hv.opened e he
        exact ⟨_, node?_close_of_eq hm id, hopen'.value_eq, hopen'.splits, hopen'.cost_le⟩
      · have hle := hopen.cost_le y hy.relaxed hwithin
        rw [hvalue] at himproves
        rw [← hv.incumbent_sense] at hle
        show p.sense.Reaches s.incumbent.value? (p.valueAt y)
        rw [← hv.incumbent_sense]
        exact State.reaches_incumbent (Bool.eq_false_iff.1 himproves) hle
  | kept _ hsplit => exact absurd hsplit hopen.splits
  | split _ hsplit joinsLow joinsHigh =>
      have hle : ∀ y, p.relaxation.Feasible y → Within n.bounds y →
          p.sense.cost (n.value.getD task.sense.worstValue) ≤ p.sense.cost (p.valueAt y) :=
        hvalue ▸ hopen.cost_le
      obtain ⟨hcont₁, hacc₁⟩ := joinsLow.continues hsense hsound hv hle
      obtain ⟨hcont₂, hacc₂⟩ := joinsHigh.continues hsense hsound hcont₁.valid hle
      refine ⟨hcont₁.trans hcont₂, ?_⟩
      intro y hy hwithin
      rcases Branching.mem_half_of_whole hsplit hy.whole with hhalf | hhalf
      · exact (hacc₁ y hy.relaxed hwithin hhalf).grow hcont₂.grows
      · exact hacc₂ y hy.relaxed hwithin hhalf

/-- What holds where a search looks for the next node. -/
structure Sound (task : Task K σ) (p : IntegerProgram K) (s : State K σ) : Prop where
  valid : Valid task p s
  accounted : ∀ y, p.Feasible y → Accounted p s y

omit [PlainText K] in
/-- **No feasible point of whole numbers is better than the bound of a sound state.** -/
theorem Sound.reaches_bestBound? (h : Sound task p s) {y : List K} (hy : p.Feasible y) :
    p.sense.Reaches (s.bestBound? p.sense) (p.valueAt y) :=
  h.valid.reaches_bestBound? hy (h.accounted y hy)

/-- Taking a node from the frontier and processing it forgets no point. -/
theorem visit_spec (hsense : task.sense = p.sense) (hsound : task.backend.IsSound p.relaxation)
    (h : Sound task p s) {id : ℕ} {frontier : Frontier K}
    (hpop : s.frontier.pop? = some (id, frontier))
    (hvisit : (visit task s id frontier).outcome = .ok s') : Sound task p s' := by
  obtain ⟨e, rfl, he, hfsense, hentries⟩ := Frontier.entries_of_pop? hpop
  obtain ⟨n, hn, hopen⟩ := h.valid.opened e he
  have hv : Valid task p { s with frontier := frontier, explored := s.explored + 1 } :=
    ⟨hfsense.trans h.valid.frontier_sense, h.valid.incumbent_sense,
      fun d hd => h.valid.opened d ((hentries d).2 (.inr hd)), h.valid.incumbent⟩
  rw [outcome_visit] at hvisit
  obtain ⟨n', hn', hprocesses⟩ := explore_processes hvisit
  obtain rfl := Option.some.inj (hn.symm.trans hn')
  obtain ⟨hcont, hacc⟩ := hprocesses.continues hsense hsound hv hopen
  refine ⟨hcont.valid, ?_⟩
  intro y hy
  rcases h.accounted y hy with ⟨d, hd, m, hm, hwithin⟩ | hknown
  · rcases (hentries d).1 hd with rfl | hd
    · obtain rfl := Option.some.inj (hn.symm.trans hm)
      exact hacc y hy hwithin
    · exact Accounted.grow (s := { s with frontier := frontier, explored := s.explored + 1 })
        (.inl ⟨d, hd, m, hm, hwithin⟩) hcont.grows
  · exact Accounted.grow (s := { s with frontier := frontier, explored := s.explored + 1 })
      (.inr hknown) hcont.grows

/-! ## The root -/

/-- What the root leaves behind: a sound state, unless its relaxation ran out of pivots. -/
structure Planted (task : Task K σ) (p : IntegerProgram K) (a : Answer K) (s : State K σ)
    (start : Start) : Prop where
  valid : Valid task p s
  accounted : a.verdict ≠ .pivotLimit → ∀ y, p.Feasible y → Accounted p s y
  settled : start = .settled → s.frontier.entries = []
  stalled : a.verdict = .pivotLimit →
    start = .settled ∧ s.stalled = 1 ∧ s.incumbent.best = none

omit [PlainText K] in
/-- Without open nodes and incumbent only the directions matter. -/
theorem valid_of_empty (hfrontier : s.frontier.sense = p.sense)
    (hincumbent : s.incumbent.sense = p.sense) (hentries : s.frontier.entries = [])
    (hbest : s.incumbent.best = none) : Valid task p s where
  frontier_sense := hfrontier
  incumbent_sense := hincumbent
  opened e he := by
    rw [hentries] at he
    cases he
  incumbent x v hxv := by
    rw [hbest] at hxv
    cases hxv

omit [PlainText K] in
/-- **The root accounts for all points.** -/
theorem Plants.planted (hsense : task.sense = p.sense) {b : σ} {a : Answer K}
    (ha : a.Holds p.relaxation []) {st : Start} (h : Plants task b a s st) :
    Planted task p a s st := by
  cases h with
  | infeasible hverdict =>
      refine ⟨valid_of_empty hsense hsense rfl rfl, ?_, fun _ => rfl, by simp [hverdict]⟩
      intro _ y hy
      exact absurd (within_nil y) (ha.infeasible hverdict y hy.relaxed)
  | stalled hverdict =>
      exact ⟨valid_of_empty hsense hsense rfl rfl, fun hne => absurd hverdict hne, fun _ => rfl,
        fun _ => ⟨rfl, rfl, rfl⟩⟩
  | integral hverdict hsplit =>
      obtain ⟨hfeas, -, hvalue, hbest⟩ := ha.optimal hverdict
      rw [hvalue, Option.getD_some]
      refine ⟨⟨hsense, hsense, by simp [State.planted, State.initial, Frontier.empty], ?_⟩, ?_,
        fun _ => rfl, by simp [hverdict]⟩
      · intro x v hxv
        obtain ⟨rfl, rfl⟩ : a.x = x ∧ p.relaxation.valueAt a.x = v := by
          simpa [Incumbent.update] using hxv
        exact ⟨hfeas, (Branching.split?_eq_none_iff _ _ _ _).1 hsplit, rfl⟩
      · intro _ y hy
        exact .inr (.inr ⟨p.valueAt a.x, rfl,
          (Sense.improves_eq_false_iff _ _ _).1 (hbest y hy.relaxed (within_nil y))⟩)
  | fractional hverdict hsplit =>
      obtain ⟨-, -, hvalue, hbest⟩ := ha.optimal hverdict
      rw [hvalue, Option.getD_some]
      refine ⟨⟨hsense, hsense, ?_,
        by simp [State.planted, State.initial, Incumbent.empty]⟩, ?_, by simp, by simp [hverdict]⟩
      · intro e he
        obtain rfl := List.mem_singleton.1 he
        exact ⟨_, rfl, hvalue, hsplit, fun y hy hwithin =>
          (Sense.improves_eq_false_iff _ _ _).1 (hbest y hy hwithin)⟩
      · intro _ y hy
        exact .inl ⟨_, List.mem_singleton.2 rfl, _, rfl, within_nil y⟩

omit [PlainText K] in
/-- Starting asks for the root relaxation and plants the root. -/
theorem start_spec (hsense : task.sense = p.sense) (hsound : task.backend.IsSound p.relaxation)
    {b : σ} {st : Start} (h : (start task b).outcome = .ok (s, st)) :
    ∃ a c, (task.backend.solve b []).outcome = .ok (a, c) ∧ Planted task p a s st := by
  obtain ⟨a, c, hsolve, hplants⟩ := start_plants h
  exact ⟨a, c, hsolve, hplants.planted hsense (hsound _ _ _ _ hsolve)⟩

/-! ## The whole search -/

/-- A state in which the search looks for the next node. -/
inductive AtLoopHead (task : Task K σ) (b : σ) : State K σ → Prop where
  /-- The root is open. -/
  | root {s : State K σ} (h : (start task b).outcome = .ok (s, .growing)) : AtLoopHead task b s
  /-- The node taken from the frontier has been processed. -/
  | next {s s' : State K σ} {id : ℕ} {frontier : Frontier K} (h : AtLoopHead task b s)
      (hpop : s.frontier.pop? = some (id, frontier))
      (hvisit : (visit task s id frontier).outcome = .ok s') : AtLoopHead task b s'

/-- The backend does not run out of pivots on the root relaxation. -/
def DecidesRoot (backend : Backend K σ) (b : σ) : Prop :=
  ∀ a b', (backend.solve b []).outcome = .ok (a, b') → a.verdict ≠ .pivotLimit

/-- **Every state in which the search looks for the next node is sound.** -/
theorem AtLoopHead.sound (hsense : task.sense = p.sense)
    (hsound : task.backend.IsSound p.relaxation) {b : σ} (h : AtLoopHead task b s) :
    Sound task p s := by
  induction h with
  | root h =>
      obtain ⟨a, b', -, hplanted⟩ := start_spec hsense hsound h
      refine ⟨hplanted.valid, hplanted.accounted ?_⟩
      intro hlimit
      cases (hplanted.stalled hlimit).1
  | next _ hpop hvisit ih => exact visit_spec hsense hsound ih hpop hvisit

/-- Why a search stops: no node is open, the node budget is used up, or the time is over. -/
inductive Stops (task : Task K σ) (s : State K σ) : Option Limit → Prop where
  /-- No node is open. -/
  | exhausted (h : s.frontier.entries = []) : Stops task s none
  /-- The node budget is used up, and a node is still open. -/
  | budget (h : s.explored = task.settings.maxNodes) (hopen : s.frontier.entries ≠ []) :
      Stops task s (some .nodes)
  /-- The time is over. -/
  | late {l : ℕ} (h : task.settings.timeLimit = some l) : Stops task s (some .time)

/-- The search stops where it looks for the next node. -/
theorem AtLoopHead.proceeds {b : σ} (h : AtLoopHead task b s) {m : ℕ} {limit : Option Limit}
    (hbudget : s.explored + m = task.settings.maxNodes) (hproceeds : Proceeds task m s s' limit) :
    AtLoopHead task b s' ∧ Stops task s' limit := by
  induction hproceeds with
  | exhausted hpop => exact ⟨h, .exhausted (Frontier.pop?_eq_none_iff.1 hpop)⟩
  | spent hpop =>
      refine ⟨h, .budget hbudget fun hentries => ?_⟩
      rw [Frontier.pop?_eq_none_iff.2 hentries] at hpop
      cases hpop
  | late _ hlate =>
      obtain ⟨l, hl⟩ := task.exists_of_isLate hlate
      exact ⟨h, .late hl⟩
  | next hpop _ hvisit _ ih =>
      have hexplored := explored_of_visit hvisit
      exact ih (h.next hpop hvisit) (by omega)

/-- **A search ends with its root or where it looks for the next node.** -/
theorem run_cases {b : σ} {limit : Option Limit} (h : (run task b).outcome = .ok (s, limit)) :
    ((start task b).outcome = .ok (s, .settled) ∧ limit = none) ∨
      AtLoopHead task b s ∧ Stops task s limit := by
  cases run_eq_ok_iff.1 h with
  | settled hstart => exact .inl ⟨hstart, rfl⟩
  | grown hstart hproceeds =>
      obtain ⟨n, hroot⟩ := start_cases hstart
      exact .inr ((AtLoopHead.root hstart).proceeds (by rw [hroot.explored_eq, Nat.zero_add])
        hproceeds)

/-- **What holds of the root and is kept by every visit holds wherever the search looks for the next
node, and where it ends.** -/
theorem run_induction {motive : State K σ → Prop} {b : σ}
    (root : ∀ {s st n}, Rooted task s st n → motive s)
    (step : ∀ {s s' id rest}, motive s → s.frontier.pop? = some (id, rest) →
      (visit task s id rest).outcome = .ok s' → motive s') :
    (∀ s, AtLoopHead task b s → motive s) ∧
      ∀ s limit, (run task b).outcome = .ok (s, limit) → motive s := by
  have hheads : ∀ s, AtLoopHead task b s → motive s := by
    intro s hs
    induction hs with
    | root hstart =>
        obtain ⟨n, hroot⟩ := start_cases hstart
        exact root hroot
    | next _ hpop hvisit ih => exact step ih hpop hvisit
  refine ⟨hheads, fun s limit hrun => ?_⟩
  obtain ⟨hstart, -⟩ | ⟨hs, -⟩ := run_cases hrun
  · obtain ⟨n, hroot⟩ := start_cases hstart
    exact root hroot
  · exact hheads s hs

/-- How a search ends: with all points accounted for, unless the root relaxation ran out of
pivots. -/
structure Ended (task : Task K σ) (p : IntegerProgram K) (a : Answer K) (s : State K σ)
    (limit : Option Limit) : Prop where
  valid : Valid task p s
  accounted : a.verdict ≠ .pivotLimit → ∀ y, p.Feasible y → Accounted p s y
  exhausted : limit = none → s.frontier.entries = []
  stalled : a.verdict = .pivotLimit → s.stalled = 1 ∧ s.incumbent.best = none

/-- Where a search looks for the next node, the backend has answered for the root. -/
theorem AtLoopHead.exists_start {b : σ} (h : AtLoopHead task b s) :
    ∃ s₀, (start task b).outcome = .ok (s₀, .growing) := by
  induction h with
  | root h => exact ⟨_, h⟩
  | next _ _ _ ih => exact ih

/-- **The whole search keeps account of the points.** -/
theorem run_spec (hsense : task.sense = p.sense) (hsound : task.backend.IsSound p.relaxation)
    {b : σ} {limit : Option Limit} (h : (run task b).outcome = .ok (s, limit)) :
    ∃ a b', (task.backend.solve b []).outcome = .ok (a, b') ∧ Ended task p a s limit := by
  obtain ⟨hstart, rfl⟩ | ⟨hhead, hstops⟩ := run_cases h
  · obtain ⟨a, b', hsolve, hplanted⟩ := start_spec hsense hsound hstart
    exact ⟨a, b', hsolve, hplanted.valid, hplanted.accounted, fun _ => hplanted.settled rfl,
      fun hlimit => (hplanted.stalled hlimit).2⟩
  · obtain ⟨s₀, hstart⟩ := hhead.exists_start
    obtain ⟨a, b', hsolve, hplanted⟩ := start_spec hsense hsound hstart
    have hend := hhead.sound hsense hsound
    refine ⟨a, b', hsolve, hend.valid, fun _ => hend.accounted, ?_,
      fun hlimit => absurd (hplanted.stalled hlimit).1 (by simp)⟩
    rintro rfl
    cases hstops with
    | exhausted hentries => exact hentries

/-! ## The verdict -/

omit [PlainText K]

namespace Ended

variable {a : Answer K} {limit : Option Limit} (h : Ended task p a s limit)
include h

/-- **Without a limit the incumbent reaches every point.** -/
theorem incumbent_reaches (hroot : a.verdict ≠ .pivotLimit) (hlimit : finalLimit s limit = none)
    {y : List K} (hy : p.Feasible y) : p.sense.Reaches s.incumbent.value? (p.valueAt y) := by
  have hnone : limit = none ∧ s.stallIsOpen = false := by
    cases limit with
    | some l => cases hlimit
    | none => simpa [finalLimit] using hlimit
  rcases h.accounted hroot y hy with ⟨e, he, -⟩ | ⟨v, hv, hle⟩ | hinc
  · rw [h.exhausted hnone.1] at he
    cases he
  · -- a stalled bound that cannot improve on the incumbent
    have himp : s.incumbent.canImprove v = false := by
      have := hnone.2
      rwa [State.stallIsOpen, hv] at this
    rw [← h.valid.incumbent_sense] at hle ⊢
    exact State.reaches_incumbent (Bool.eq_false_iff.1 himp) hle
  · exact hinc

/-- A reported point is an incumbent. -/
theorem candidate (hsol : (finish task s limit).status.hasSolution = true) :
    ∃ x v, s.incumbent.best = some (x, v) ∧ Candidate task p x v := by
  have hsome : s.incumbent.hasSolution = true := by
    by_contra hno
    unfold finish at hsol
    simp only [Bool.eq_false_iff.2 hno] at hsol
    cases hfin : finalLimit s limit <;> rw [hfin] at hsol <;> cases hsol
  obtain ⟨⟨x, v⟩, hbest⟩ := Option.isSome_iff_exists.1 hsome
  exact ⟨x, v, hbest, h.valid.incumbent x v hbest⟩

/-- **A search that reports an optimum has one.** -/
theorem optimal (hsol : (finish task s limit).status = .optimal) :
    ∃ x v, s.incumbent.best = some (x, v) ∧ Candidate task p x v ∧
      ∀ y, p.Feasible y → p.sense.improves (p.valueAt y) v = false := by
  obtain ⟨x, v, hbest, hcand⟩ := h.candidate (by rw [hsol]; rfl)
  refine ⟨x, v, hbest, hcand, ?_⟩
  intro y hy
  have hlimit : finalLimit s limit = none := by
    unfold finish at hsol
    cases hfin : finalLimit s limit with
    | none => rfl
    | some l =>
        rw [hfin] at hsol
        cases hinc : s.incumbent.hasSolution <;> simp [hinc, Status.ofLimit] at hsol
  have hroot : a.verdict ≠ .pivotLimit := by
    intro hstall
    rw [(h.stalled hstall).2] at hbest
    cases hbest
  exact (h.incumbent_reaches hroot hlimit hy).not_improves (by rw [Incumbent.value?, hbest]; rfl)

/-- **A search that reports infeasibility leaves no point**, unless the root relaxation ran out of
pivots. -/
theorem infeasible (hroot : a.verdict ≠ .pivotLimit)
    (hsol : (finish task s limit).status = .infeasible) (y : List K) : ¬ p.Feasible y := by
  intro hy
  unfold finish at hsol
  cases hfin : finalLimit s limit with
  | some l =>
      rw [hfin] at hsol
      cases hinc : s.incumbent.hasSolution <;> simp [hinc, Status.ofLimit] at hsol
  | none =>
      rw [hfin] at hsol
      obtain ⟨v, hv, -⟩ := h.incumbent_reaches hroot hfin hy
      have hinc : s.incumbent.hasSolution = true := by
        rw [Incumbent.value?, Option.map_eq_some_iff] at hv
        obtain ⟨b, hb, -⟩ := hv
        rw [Incumbent.hasSolution, hb]
        rfl
      simp [hinc, Status.ofLimit] at hsol

end Ended

/-- A search that gives a result has ended, and the result is read off its last state. -/
theorem solve_spec [PlainText K] (hsense : task.sense = p.sense)
    (hsound : task.backend.IsSound p.relaxation) {b : σ} {solution : Solution K}
    (h : (solve task b).outcome = .ok solution) :
    ∃ s limit a b', solution = finish task s limit ∧
      (task.backend.solve b []).outcome = .ok (a, b') ∧ Ended task p a s limit := by
  obtain ⟨s, limit, hrun, rfl⟩ := solve_eq_ok_iff.1 h
  obtain ⟨a, b', hsolve, hended⟩ := run_spec hsense hsound hrun
  exact ⟨s, limit, a, b', rfl, hsolve, hended⟩

/-- No feasible point of whole numbers is better than the bound, and without a bound there is no
such point. -/
def BoundHolds (p : IntegerProgram K) (s : State K σ) : Prop :=
  match s.bestBound? p.sense with
  | some bound => ∀ y, p.Feasible y → p.sense.improves (p.valueAt y) bound = false
  | none => ∀ y, ¬ p.Feasible y

theorem boundHolds_of_reaches
    (h : ∀ y, p.Feasible y → p.sense.Reaches (s.bestBound? p.sense) (p.valueAt y)) :
    BoundHolds p s := by
  unfold BoundHolds
  cases hbound : s.bestBound? p.sense with
  | some bound => exact fun y hy => (h y hy).not_improves hbound
  | none =>
      intro y hy
      have := h y hy
      rw [hbound] at this
      exact Sense.not_reaches_none _ this

/-- **With true answers the bound is valid at every moment.**  Whatever the backend, the settings
and the clock: wherever the search looks for the next node, and where it ends, no feasible point of
whole numbers is better than the bound; and if it ends with the verdict `optimal`, its point
satisfies the relaxation and is integral within the tolerance, and no feasible point of whole
numbers is better.  On other nodes than the root the backend may leave the verdict open. -/
theorem bound_valid [PlainText K] (backend : Backend K σ) (p : IntegerProgram K)
    (settings : Settings K) (clock : Clock) (b : σ) (hsound : backend.IsSound p.relaxation)
    (hroot : DecidesRoot backend b) :
    (∀ s, AtLoopHead (.ofProgram backend p settings clock) b s → BoundHolds p s) ∧
    (∀ s limit, (run (.ofProgram backend p settings clock) b).outcome = .ok (s, limit) →
      BoundHolds p s) ∧
    ∀ solution, (solve (.ofProgram backend p settings clock) b).outcome = .ok solution →
      solution.status = .optimal → ∃ x v, solution.x = some x ∧ solution.value = some v ∧
        p.relaxation.Feasible x ∧ IntegerProgram.isIntegral x settings.integralityTol = true ∧
        v = p.valueAt x ∧ ∀ y, p.Feasible y → p.sense.improves (p.valueAt y) v = false := by
  refine ⟨fun s hs => ?_, fun s limit hrun => ?_, fun solution hsolve hstatus => ?_⟩
  · have hsnd : Sound _ p s := hs.sound rfl hsound
    exact boundHolds_of_reaches fun y hy => hsnd.reaches_bestBound? hy
  · obtain ⟨a, b', hanswer, hended⟩ := run_spec (p := p) rfl hsound hrun
    exact boundHolds_of_reaches fun y hy =>
      hended.valid.reaches_bestBound? hy (hended.accounted (hroot a b' hanswer) y hy)
  · obtain ⟨s, limit, a, b', rfl, -, hended⟩ := solve_spec (p := p) rfl hsound hsolve
    obtain ⟨x, v, hbest, hcand, hmax⟩ := hended.optimal hstatus
    refine ⟨x, v, ?_, ?_, hcand.feasible, hcand.integral, hcand.value_eq, hmax⟩
    · exact congrArg (Option.map Prod.fst) hbest
    · exact congrArg (Option.map Prod.snd) hbest

/-! ## A program with a gap -/

/-- Settings with tolerances of zero. -/
def Settings.exact (branching : BranchingRule) (maxNodes : ℕ) (linear : LinearProgram.Settings K) :
    Settings K where
  maxNodes := maxNodes
  timeLimit := none
  integralityTol := 0
  branching := branching
  linear := linear
  verbose := false
  progressEvery := 0

/-- Maximize `x₁ + x₂` under `2 x₁ + 2 x₂ ≤ 3` and `x₂ ≤ x₁`: with fractions `3/2` can be reached,
with whole numbers only `1`. -/
def halves : IntegerProgram ℚ := .ofParts [1, 1] [[2, 2], [-1, 1]] [3, 0] true

/-- Settings under which the search of `halves` is complete. -/
def halvesSettings : Settings ℚ := .exact .mostFractional 100 (.exact .dantzig 100)

/-- With the simplex method as backend the search of `halves` ends with the optimum `1`. -/
theorem halves_bound_valid :
    (simplexBackend halvesSettings.linear halves.relaxation).IsSound halves.relaxation ∧
    DecidesRoot (simplexBackend halvesSettings.linear halves.relaxation) 0 ∧
    (∀ s, AtLoopHead (halves.task halvesSettings fun _ => 0) 0 s → BoundHolds halves s) ∧
    ∃ solution, (solve (halves.task halvesSettings fun _ => 0) 0).outcome = .ok solution ∧
      solution.status = .optimal ∧ solution.value = some 1 ∧
        ∀ y, halves.Feasible y → halves.sense.improves (halves.valueAt y) 1 = false := by
  have hsound : (simplexBackend halvesSettings.linear halves.relaxation).IsSound
      halves.relaxation :=
    simplexBackend_isSound ((halves.relaxation.check_eq_ok_iff).1 rfl)
      (LinearProgram.Settings.isExact_exact .dantzig 100)
  have hanswer : ((simplexBackend halvesSettings.linear halves.relaxation).solve 0 []).outcome =
      .ok (⟨.optimal, .optimal, [3 / 2, 0], some (3 / 2), 1⟩, 1) := by
    decide +kernel
  have hroot : DecidesRoot (simplexBackend halvesSettings.linear halves.relaxation) 0 := by
    intro a b' h
    obtain ⟨rfl, -⟩ := Prod.mk.inj (Except.ok.inj (hanswer.symm.trans h))
    simp
  obtain ⟨hheads, -, hoptimal⟩ :=
    bound_valid _ halves halvesSettings (fun _ => 0) 0 hsound hroot
  have heval : (solve (halves.task halvesSettings fun _ => 0) 0).outcome.map
      (fun solution => (solution.status, solution.value)) = .ok (.optimal, some 1) := by
    decide +kernel
  obtain ⟨solution, hout, heq⟩ := exists_of_map_eq_ok heval
  obtain ⟨hstatus, hvalue⟩ := Prod.mk.inj heq
  obtain ⟨x, v, -, hv, -, -, -, hmax⟩ := hoptimal solution hout hstatus
  obtain rfl := Option.some.inj (hvalue.symm.trans hv)
  exact ⟨hsound, hroot, hheads, solution, hout, hstatus, hvalue, hmax⟩

end Search

end BranchBound
