import BranchBound.Proofs.Relaxation
import BranchBound.Proofs.Search.BestBound
import BranchBound.Proofs.Search.Steps

/-!
# What a search keeps track of

At every moment each feasible point of whole numbers is accounted for (`Accounted`): it lies within
the bounds of an open node, or the stalled bound reaches it, or the incumbent does.  Along with that
goes what is true of open nodes and of the incumbent (`Valid`).  A step only adds nodes and improves
bounds (`Grows`), so it loses no point that was accounted for, and the children of a split account
for the points of the node that was split (`Joins.continues`).

Nothing is asked of the solver of relaxations but that its answers are true (`Backend.IsSound`).
-/

namespace BranchBound

variable {K : Type} [ExactScalar K] {σ : Type}

namespace Search

open Relaxation

/-! ## The invariant -/

/-- A node that waits to be split: no point within its bounds is better than its value. -/
structure OpenNode (task : Task K σ) (p : IntegerProgram K) (n : Node K) (value : K) : Prop where
  value_eq : n.value = some value
  splits : task.split? n.x ≠ none
  cost_le : ∀ y, p.relaxation.Feasible y → Within n.bounds y →
    p.sense.cost value ≤ p.sense.cost (p.valueAt y)

/-- A point that may be an incumbent, with its value. -/
structure Candidate (task : Task K σ) (p : IntegerProgram K) (x : List K) (value : K) : Prop where
  feasible : p.relaxation.Feasible x
  integral : IntegerProgram.isIntegral x task.settings.integralityTol = true
  value_eq : value = p.valueAt x

/-- The open nodes and the incumbent are what they should be. -/
structure Valid (task : Task K σ) (p : IntegerProgram K) (s : State K σ) : Prop where
  frontier_sense : s.frontier.sense = p.sense
  incumbent_sense : s.incumbent.sense = p.sense
  opened : ∀ e ∈ s.frontier.entries, ∃ n, s.tree.node? e.id = some n ∧ OpenNode task p n e.value
  incumbent : ∀ x v, s.incumbent.best = some (x, v) → Candidate task p x v

/-- The point is below an open node, or something known is at least as good. -/
def Accounted (p : IntegerProgram K) (s : State K σ) (y : List K) : Prop :=
  (∃ e ∈ s.frontier.entries, ∃ n, s.tree.node? e.id = some n ∧ Within n.bounds y) ∨
    p.sense.Reaches s.stalledBound (p.valueAt y) ∨
      p.sense.Reaches s.incumbent.value? (p.valueAt y)

/-- What is known only grows. -/
structure Grows (sense : Sense) (s s' : State K σ) : Prop where
  nodes : ∀ {id : ℕ} {n : Node K}, s.tree.node? id = some n → ∃ n', s'.tree.node? id = some n' ∧
    n'.bounds = n.bounds ∧ n'.x = n.x ∧ n'.value = n.value
  entries : ∀ e ∈ s.frontier.entries, e ∈ s'.frontier.entries
  stalled : ∀ {c : K}, sense.Reaches s.stalledBound c → sense.Reaches s'.stalledBound c
  incumbent : ∀ {c : K}, sense.Reaches s.incumbent.value? c → sense.Reaches s'.incumbent.value? c

namespace Grows

variable {sense : Sense} {s s' s'' : State K σ}

theorem refl (sense : Sense) (s : State K σ) : Grows sense s s :=
  ⟨fun h => ⟨_, h, rfl, rfl, rfl⟩, fun _ h => h, fun h => h, fun h => h⟩

theorem trans (h : Grows sense s s') (h' : Grows sense s' s'') : Grows sense s s'' where
  nodes hn := by
    obtain ⟨n', hn', hb, hx, hv⟩ := h.nodes hn
    obtain ⟨n'', hn'', hb', hx', hv'⟩ := h'.nodes hn'
    exact ⟨n'', hn'', hb'.trans hb, hx'.trans hx, hv'.trans hv⟩
  entries e he := h'.entries e (h.entries e he)
  stalled hc := h'.stalled (h.stalled hc)
  incumbent hc := h'.incumbent (h.incumbent hc)

end Grows

/-- A point that is accounted for stays so. -/
theorem Accounted.grow {p : IntegerProgram K} {s s' : State K σ} {y : List K}
    (h : Accounted p s y) (hg : Grows p.sense s s') : Accounted p s' y := by
  rcases h with ⟨e, he, n, hn, hy⟩ | h | h
  · obtain ⟨n', hn', hb, -, -⟩ := hg.nodes hn
    exact .inl ⟨e, hg.entries e he, n', hn', hb ▸ hy⟩
  · exact .inr (.inl (hg.stalled h))
  · exact .inr (.inr (hg.incumbent h))

/-- **What is accounted for is no better than the bound of the state.** -/
theorem Valid.reaches_bestBound? {task : Task K σ} {p : IntegerProgram K} {s : State K σ}
    (hv : Valid task p s) {y : List K} (hy : p.Feasible y) (h : Accounted p s y) :
    p.sense.Reaches (s.bestBound? p.sense) (p.valueAt y) := by
  refine State.reaches_bestBound? hv.incumbent_sense (h.imp_left ?_)
  rintro ⟨e, he, n, hn, hwithin⟩
  obtain ⟨n', hn', hopen⟩ := hv.opened e he
  obtain rfl := Option.some.inj (hn.symm.trans hn')
  rw [← hv.frontier_sense]
  refine Frontier.reaches_bestBound? he ?_
  rw [hv.frontier_sense]
  exact hopen.cost_le y hy.relaxed hwithin

/-! ## Incumbent and stalled bound -/

/-- An update leaves the incumbent at least as good as it was and as the new point. -/
theorem reaches_update (i : Incumbent K) (x : List K) (v : K) {c : K}
    (h : i.sense.Reaches i.value? c ∨ i.sense.cost v ≤ i.sense.cost c) :
    i.sense.Reaches (i.update x v).value? c := by
  by_cases himp : i.canImprove v = true
  · have hvalue : (i.update x v).value? = some v := by
      rw [Incumbent.value?, Incumbent.best_update himp]
      rfl
    rw [hvalue, Sense.reaches_some]
    rcases h with ⟨w, hw, hle⟩ | hle
    · rw [Incumbent.value?, Option.map_eq_some_iff] at hw
      obtain ⟨b, hb, rfl⟩ := hw
      rw [Incumbent.canImprove, hb] at himp
      exact ((i.sense.improves_iff _ _).1 himp).le.trans hle
    · exact hle
  · rw [Incumbent.update_of_not_canImprove (Bool.eq_false_iff.2 himp)]
    exact h.elim id (State.reaches_incumbent himp)

/-- After a stall the stalled bound is at least as good as it was and as the parent's value. -/
theorem reaches_noteStall {sense : Sense} (s : State K σ) (v : K) {c : K}
    (h : sense.Reaches s.stalledBound c ∨ sense.cost v ≤ sense.cost c) :
    sense.Reaches (noteStall sense s v).stalledBound c := by
  unfold noteStall
  cases hb : s.stalledBound with
  | none =>
      rw [hb] at h
      exact Sense.reaches_some.2 (h.resolve_left (Sense.not_reaches_none c))
  | some b =>
      rw [hb, Sense.reaches_some] at h
      rw [Sense.reaches_some]
      have hbetter := State.cost_betterOf_le sense b v
      exact h.elim hbetter.1.trans hbetter.2.trans

/-! ## Relaxing and classifying a child -/

variable {task : Task K σ} {p : IntegerProgram K} {s s' : State K σ}

/-- What becomes of a child whose points are those within `bounds`: unless it opens, each of them is
reached by the stalled bound or by the incumbent. -/
structure Classified (task : Task K σ) (p : IntegerProgram K) (bounds : List (Bound K))
    (a : Answer K) (s : State K σ) (kind : NodeKind) (s' : State K σ) : Prop where
  tree_eq : s'.tree = s.tree
  frontier_eq : s'.frontier = s.frontier
  grows : Grows p.sense s s'
  incumbent_sense : s'.incumbent.sense = p.sense
  incumbent : ∀ x v, s'.incumbent.best = some (x, v) → Candidate task p x v
  opened : kind = .branch → ∃ value, a.value = some value ∧ task.split? a.x ≠ none ∧
    ∀ y, p.relaxation.Feasible y → Within bounds y →
      p.sense.cost value ≤ p.sense.cost (p.valueAt y)
  closed : kind ≠ .branch → ∀ y, p.relaxation.Feasible y → Within bounds y →
    p.sense.Reaches s'.stalledBound (p.valueAt y) ∨
      p.sense.Reaches s'.incumbent.value? (p.valueAt y)

namespace Classified

variable (hv : Valid task p s) {bounds : List (Bound K)} {a : Answer K}
include hv

/-- Below an infeasible child there are no points. -/
theorem infeasible (ha : a.Holds p.relaxation bounds) (hverdict : a.verdict = .infeasible) :
    Classified task p bounds a s .infeasible s where
  tree_eq := rfl
  frontier_eq := rfl
  grows := .refl _ _
  incumbent_sense := hv.incumbent_sense
  incumbent := hv.incumbent
  opened h := by cases h
  closed _ y hy hwithin := absurd hwithin (ha.infeasible hverdict y hy)

/-- A child without a verdict is given up, and its parent's value stays open. -/
theorem stalled (hsense : task.sense = p.sense) {parentValue : K}
    (hparent : ∀ y, p.relaxation.Feasible y → Within bounds y →
      p.sense.cost parentValue ≤ p.sense.cost (p.valueAt y)) :
    Classified task p bounds a s .infeasible (noteStall task.sense s parentValue) where
  tree_eq := rfl
  frontier_eq := rfl
  grows := ⟨fun hn => ⟨_, hn, rfl, rfl, rfl⟩, fun _ he => he,
    fun hc => hsense ▸ reaches_noteStall s parentValue (.inl (hsense ▸ hc)), fun hc => hc⟩
  incumbent_sense := hv.incumbent_sense
  incumbent := hv.incumbent
  opened h := by cases h
  closed _ y hy hwithin :=
    .inl (hsense ▸ reaches_noteStall s parentValue (.inr (hsense ▸ hparent y hy hwithin)))

variable (hle : ∀ y, p.relaxation.Feasible y → Within bounds y →
  p.sense.cost (p.valueAt a.x) ≤ p.sense.cost (p.valueAt y))
include hle

/-- With the point of an integral child the incumbent reaches all points below it. -/
theorem integer (hfeas : p.relaxation.Feasible a.x) (hsplit : task.split? a.x = none) :
    Classified task p bounds a s .integer
      { s with incumbent := s.incumbent.update a.x (p.valueAt a.x) } where
  tree_eq := rfl
  frontier_eq := rfl
  grows := ⟨fun hn => ⟨_, hn, rfl, rfl, rfl⟩, fun _ he => he, fun hc => hc, fun hc =>
    hv.incumbent_sense ▸ reaches_update _ _ _ (.inl (hv.incumbent_sense.symm ▸ hc))⟩
  incumbent_sense := (sense_update _ _ _).trans hv.incumbent_sense
  incumbent x v hxv := by
    rcases best_update_cases s.incumbent a.x (p.valueAt a.x) with hsame | hnew
    · exact hv.incumbent x v (hsame ▸ hxv)
    · obtain ⟨rfl, rfl⟩ : a.x = x ∧ p.valueAt a.x = v := by
        simpa using hnew.symm.trans hxv
      exact ⟨hfeas, (Branching.split?_eq_none_iff _ _ _ _).1 hsplit, rfl⟩
  opened h := by cases h
  closed _ y hy hwithin := .inr (hv.incumbent_sense ▸ reaches_update _ _ _
    (.inr (hv.incumbent_sense.symm ▸ hle y hy hwithin)))

/-- A fractional child that can improve on the incumbent opens. -/
theorem branch (hvalue : a.value = some (p.valueAt a.x)) (hsplit : task.split? a.x ≠ none) :
    Classified task p bounds a s .branch s where
  tree_eq := rfl
  frontier_eq := rfl
  grows := .refl _ _
  incumbent_sense := hv.incumbent_sense
  incumbent := hv.incumbent
  opened _ := ⟨_, hvalue, hsplit, hle⟩
  closed hne := absurd rfl hne

/-- The incumbent reaches all points below a child that cannot improve on it. -/
theorem pruned (himp : ¬ s.incumbent.canImprove (p.valueAt a.x) = true) :
    Classified task p bounds a s .pruned { s with pruned := s.pruned + 1 } where
  tree_eq := rfl
  frontier_eq := rfl
  grows := ⟨fun hn => ⟨_, hn, rfl, rfl, rfl⟩, fun _ he => he, fun hc => hc, fun hc => hc⟩
  incumbent_sense := hv.incumbent_sense
  incumbent := hv.incumbent
  opened h := by cases h
  closed _ y hy hwithin := .inr (hv.incumbent_sense ▸
    State.reaches_incumbent himp (hv.incumbent_sense.symm ▸ hle y hy hwithin))

end Classified

/-- **A child is classified so that no point below it is forgotten.** -/
theorem Classifies.classified (hsense : task.sense = p.sense) (hv : Valid task p s)
    {bounds : List (Bound K)} {a : Answer K} (ha : a.Holds p.relaxation bounds) {parentValue : K}
    (hparent : ∀ y, p.relaxation.Feasible y → Within bounds y →
      p.sense.cost parentValue ≤ p.sense.cost (p.valueAt y)) {kind : NodeKind}
    (h : Classifies task s parentValue a kind s') : Classified task p bounds a s kind s' := by
  have hbest : a.verdict = .optimal → p.relaxation.Feasible a.x ∧ a.value = some (p.valueAt a.x) ∧
      ∀ y, p.relaxation.Feasible y → Within bounds y →
        p.sense.cost (p.valueAt a.x) ≤ p.sense.cost (p.valueAt y) := by
    intro hverdict
    obtain ⟨hfeas, -, hvalue, hbest⟩ := ha.optimal hverdict
    exact ⟨hfeas, hvalue, fun y hy hwithin =>
      (Sense.improves_eq_false_iff _ _ _).1 (hbest y hy hwithin)⟩
  cases h with
  | infeasible hverdict => exact .infeasible hv ha hverdict
  | stalled _ _ => exact .stalled hv hsense hparent
  | integer hverdict hvalue hsplit =>
      obtain ⟨hfeas, hvalue', hle⟩ := hbest hverdict
      obtain rfl := Option.some.inj (hvalue'.symm.trans hvalue)
      exact .integer hv hle hfeas hsplit
  | branch hverdict _ hsplit _ =>
      obtain ⟨-, hvalue, hle⟩ := hbest hverdict
      exact .branch hv hle hvalue hsplit
  | pruned hverdict hvalue _ himproves =>
      obtain ⟨-, hvalue', hle⟩ := hbest hverdict
      obtain rfl := Option.some.inj (hvalue'.symm.trans hvalue)
      exact .pruned hv hle (Bool.eq_false_iff.1 himproves)

/-! ## Children -/

/-- What a step leaves behind: the invariant, with nothing lost. -/
structure Continues (task : Task K σ) (p : IntegerProgram K) (s s' : State K σ) : Prop where
  valid : Valid task p s'
  grows : Grows p.sense s s'

theorem Continues.trans {s'' : State K σ} (h : Continues task p s s')
    (h' : Continues task p s' s'') : Continues task p s s'' :=
  ⟨h'.valid, h.grows.trans h'.grows⟩

/-- A classified node joins the tree, and the frontier if it opens; then all points below it are
accounted for. -/
theorem Classified.join {a : Answer K} {n : Node K} (v : K) (hv : Valid task p s)
    (hc : Classified task p n.bounds a s n.kind s') (hid : n.id = s.tree.nextId) (hx : n.x = a.x)
    (hvalue : n.value = a.value) :
    Continues task p s (s'.join n v) ∧
      ∀ y, p.relaxation.Feasible y → Within n.bounds y → Accounted p (s'.join n v) y := by
  have hpush : ∀ {id : ℕ} {m : Node K}, s.tree.node? id = some m →
      (s'.tree.push n).node? id = some m := by
    intro id m hm
    rw [hc.tree_eq, Tree.node?_push_of_lt (Tree.lt_size_of_node? hm), hm]
  have hnew : (s'.tree.push n).node? n.id = some n := by
    rw [hc.tree_eq, hid, Tree.node?_push_nextId, ← hid]
  have hold : ∀ e ∈ s.frontier.entries, ∃ m, (s'.tree.push n).node? e.id = some m ∧
      OpenNode task p m e.value := by
    intro e he
    obtain ⟨m, hm, hopen⟩ := hv.opened e he
    exact ⟨m, hpush hm, hopen⟩
  unfold State.join
  rw [hc.frontier_eq]
  by_cases hkind : n.kind = .branch
  · obtain ⟨value, hval, hsplit, hle⟩ := hc.opened hkind
    rw [if_pos hkind, hvalue, hval, Option.getD_some]
    refine ⟨⟨⟨hv.frontier_sense, hc.incumbent_sense, fun e he => ?_, hc.incumbent⟩,
      ⟨fun hm => ⟨_, hpush hm, rfl, rfl, rfl⟩, fun e he => List.mem_cons_of_mem _ he,
        hc.grows.stalled, hc.grows.incumbent⟩⟩, fun y _ hwithin =>
          .inl ⟨_, List.mem_cons_self, _, hnew, hwithin⟩⟩
    rcases List.mem_cons.1 he with rfl | he
    · exact ⟨_, hnew, hvalue.trans hval, hx ▸ hsplit, hle⟩
    · exact hold e he
  · rw [if_neg hkind]
    exact ⟨⟨⟨hv.frontier_sense, hc.incumbent_sense, hold, hc.incumbent⟩,
      ⟨fun hm => ⟨_, hpush hm, rfl, rfl, rfl⟩, fun e he => he, hc.grows.stalled,
        hc.grows.incumbent⟩⟩, fun y hy hwithin => .inr (hc.closed hkind y hy hwithin)⟩

/-- **A child accounts for the points of its parent within its bound.** -/
theorem Joins.continues [PlainText K] (hsense : task.sense = p.sense)
    (hsound : task.backend.IsSound p.relaxation) (hv : Valid task p s) {parent n : Node K}
    {parentValue : K} (hparent : ∀ y, p.relaxation.Feasible y → Within parent.bounds y →
      p.sense.cost parentValue ≤ p.sense.cost (p.valueAt y)) {bound : Bound K} {a : Answer K}
    {s₁ : State K σ} (h : Joins task parent parentValue bound s s' n a s₁) :
    Continues task p s s' ∧ ∀ y, p.relaxation.Feasible y → Within parent.bounds y →
      bound.Admits y → Accounted p s' y := by
  obtain ⟨⟨c, hsolve, hclassifies⟩, hn, rfl⟩ := h
  have hbounds : n.bounds = parent.bounds ++ [bound] := by rw [hn]; rfl
  have hv₀ : Valid task p { s with backend := c } :=
    ⟨hv.frontier_sense, hv.incumbent_sense, hv.opened, hv.incumbent⟩
  have ha : a.Holds p.relaxation n.bounds := hbounds ▸ hsound _ _ _ _ hsolve
  have hc := hclassifies.classified hsense hv₀ ha fun y hy hwithin =>
    hparent y hy (within_append_singleton.1 (hbounds ▸ hwithin)).1
  obtain ⟨hcont, hacc⟩ := hc.join parentValue hv₀ (by rw [hn]; rfl) (by rw [hn]; rfl)
    (by rw [hn]; rfl)
  exact ⟨⟨hcont.valid, hcont.grows.nodes, hcont.grows.entries, hcont.grows.stalled,
    hcont.grows.incumbent⟩, fun y hy hwithin hadmits =>
      hacc y hy (hbounds ▸ within_append_singleton.2 ⟨hwithin, hadmits⟩)⟩

end Search

end BranchBound
