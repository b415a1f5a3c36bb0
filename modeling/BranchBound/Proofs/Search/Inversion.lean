import BranchBound.Proofs.ExactScalar
import BranchBound.Search.BranchAndBound

/-!
# What each step of the search does

One relation per step says everything that the step can do, over any scalars and whatever the
backend answers: how a child is classified (`Classifies`), how it joins the tree (`Joins`), what
becomes of a node from the frontier (`Processes`) and of the root (`Plants`).  A step that has a
result is one of the cases of its relation (`classify_classifies`, `addChild_joins`,
`explore_processes`, `start_plants`); facts about searches are proved from these and need not unfold
a step again.
-/

namespace BranchBound

variable {K : Type} [Scalar K] {σ : Type}

namespace Search

open Relaxation

variable {task : Task K σ} {s s' : State K σ}

/-! ## The incumbent -/

/-- The incumbent after an update is the one before or the new point. -/
theorem best_update_cases (i : Incumbent K) (x : List K) (v : K) :
    (i.update x v).best = i.best ∨ (i.update x v).best = some (x, v) := by
  by_cases himp : i.canImprove v = true
  · exact .inr (Incumbent.best_update himp x)
  · rw [Incumbent.update_of_not_canImprove (Bool.eq_false_iff.2 himp)]
    exact .inl rfl

theorem sense_update (i : Incumbent K) (x : List K) (v : K) : (i.update x v).sense = i.sense := by
  unfold Incumbent.update
  split <;> rfl

/-! ## Relaxing and classifying a child -/

omit [Scalar K] in
/-- Relaxing asks the backend and changes nothing else. -/
theorem relax_eq_ok_iff {bounds : List (Bound K)} {a : Answer K} :
    (relax task s bounds).outcome = .ok (a, s') ↔
      ∃ b, (task.backend.solve s.backend bounds).outcome = .ok (a, b) ∧
        s' = { s with backend := b } := by
  simp only [relax, Recorded.report_eq, Recorded.bind_ok, Recorded.outcome_bind_eq_ok,
    Recorded.outcome_mapEvents, Recorded.outcome_pure, Except.ok.injEq, Prod.mk.injEq]
  constructor
  · rintro ⟨⟨a', b⟩, hsolve, rfl, rfl⟩
    exact ⟨b, hsolve, rfl⟩
  · rintro ⟨b, hsolve, rfl⟩
    exact ⟨(a, b), hsolve, rfl, rfl⟩

/-- The part of a child of a node with value `v` whose relaxation was answered by `a`, and the state
after that. -/
inductive Classifies (task : Task K σ) (s : State K σ) (v : K) (a : Answer K) :
    NodeKind → State K σ → Prop where
  /-- There is no point below the child. -/
  | infeasible (hverdict : a.verdict = .infeasible) : Classifies task s v a .infeasible s
  /-- The point of the child is integral and may replace the incumbent. -/
  | integer {value : K} (hverdict : a.verdict = .optimal) (hvalue : a.value = some value)
      (hsplit : task.split? a.x = none) :
      Classifies task s v a .integer { s with incumbent := s.incumbent.update a.x value }
  /-- The child can still improve on the incumbent. -/
  | branch {value : K} (hverdict : a.verdict = .optimal) (hvalue : a.value = some value)
      (hsplit : task.split? a.x ≠ none) (himproves : s.incumbent.canImprove value = true) :
      Classifies task s v a .branch s
  /-- The child cannot improve on the incumbent. -/
  | pruned {value : K} (hverdict : a.verdict = .optimal) (hvalue : a.value = some value)
      (hsplit : task.split? a.x ≠ none) (himproves : s.incumbent.canImprove value = false) :
      Classifies task s v a .pruned { s with pruned := s.pruned + 1 }
  /-- The relaxation has no usable answer, and the child is given up. -/
  | stalled (hfeasible : a.verdict ≠ .infeasible)
      (hvalueless : a.verdict = .optimal → a.value = none) :
      Classifies task s v a .infeasible (noteStall task.sense s v)

/-- Classifying a child does one of these things. -/
theorem classify_classifies {id : ℕ} {v : K} {a : Answer K} {kind : NodeKind}
    (h : (classify task s id v a).outcome = .ok (kind, s')) : Classifies task s v a kind s' := by
  unfold classify at h
  split at h
  · rename_i hverdict
    obtain ⟨rfl, rfl⟩ : NodeKind.infeasible = kind ∧ s = s' := by simpa using h
    exact .infeasible hverdict
  · rename_i value hverdict hvalue
    split at h
    · rename_i hsplit
      obtain ⟨rfl, rfl⟩ : NodeKind.integer = kind ∧
          { s with incumbent := s.incumbent.update a.x value } = s' := by
        split at h <;> simpa using h
      exact .integer hverdict hvalue hsplit
    · rename_i d hsplit
      have hsplits : task.split? a.x ≠ none := hsplit ▸ Option.some_ne_none d
      split at h
      · rename_i himproves
        obtain ⟨rfl, rfl⟩ : NodeKind.branch = kind ∧ s = s' := by simpa using h
        exact .branch hverdict hvalue hsplits himproves
      · rename_i himproves
        obtain ⟨rfl, rfl⟩ : NodeKind.pruned = kind ∧ { s with pruned := s.pruned + 1 } = s' := by
          simpa using h
        exact .pruned hverdict hvalue hsplits (Bool.eq_false_iff.2 himproves)
  · rename_i verdict _ hinfeasible hoptimal
    obtain ⟨rfl, rfl⟩ : NodeKind.infeasible = kind ∧ noteStall task.sense s v = s' := by
      simpa using h
    refine .stalled hinfeasible fun hverdict => ?_
    cases hvalue : a.value with
    | none => rfl
    | some value => exact absurd hvalue (hoptimal value hverdict)

/-- Classifying leaves the tree and the frontier alone. -/
theorem Classifies.tree_eq {v : K} {a : Answer K} {kind : NodeKind}
    (h : Classifies task s v a kind s') : s'.tree = s.tree ∧ s'.frontier = s.frontier := by
  cases h <;> exact ⟨rfl, rfl⟩

/-- A child that opens has a value. -/
theorem Classifies.value_ne_none {v : K} {a : Answer K} (h : Classifies task s v a .branch s') :
    a.value ≠ none := by
  cases h with
  | branch _ hvalue _ _ => exact hvalue ▸ Option.some_ne_none _

/-- The incumbent after a child is classified is the one before, or updated by the child. -/
theorem Classifies.incumbent_cases {v : K} {a : Answer K} {kind : NodeKind}
    (h : Classifies task s v a kind s') : s'.incumbent = s.incumbent ∨
      ∃ value, a.value = some value ∧ s'.incumbent = s.incumbent.update a.x value := by
  cases h with
  | infeasible _ => exact .inl rfl
  | integer _ hvalue _ => exact .inr ⟨_, hvalue, rfl⟩
  | branch _ _ _ _ => exact .inl rfl
  | pruned _ _ _ _ => exact .inl rfl
  | stalled _ _ => exact .inl rfl

/-! ## A child joins the tree -/

/-- The child of `p` under the bound `b` with its answer and its part. -/
def childNode [PlainText K] (p : Node K) (b : Bound K) (id : ℕ) (a : Answer K) (kind : NodeKind) :
    Node K :=
  { (p.child id b).withRelaxation a.status a.x a.value with kind := kind }

/-- The state after the node has joined the tree, and the frontier if it is a branch; `v` stands in
for its value if it has none. -/
def State.join (s : State K σ) (n : Node K) (v : K) : State K σ :=
  { s with
    tree := s.tree.push n
    frontier := if n.kind = .branch then s.frontier.push n.id (n.value.getD v) else s.frontier }

/-- The child `n` of `p` under the bound `b` is relaxed, classified and joins the tree. -/
structure Joins [PlainText K] (task : Task K σ) (p : Node K) (v : K) (b : Bound K)
    (s s' : State K σ) (n : Node K) (a : Answer K) (s₁ : State K σ) : Prop where
  answered : ∃ c, (task.backend.solve s.backend (p.bounds ++ [b])).outcome = .ok (a, c) ∧
    Classifies task { s with backend := c } v a n.kind s₁
  node_eq : n = childNode p b s.tree.nextId a n.kind
  state_eq : s' = s₁.join n v

/-- **Adding a child is relaxing, classifying and joining it.** -/
theorem addChild_joins [PlainText K] {p : Node K} {v : K} {b : Bound K}
    (h : (addChild task p v s b).outcome = .ok s') : ∃ n a s₁, Joins task p v b s s' n a s₁ := by
  simp only [addChild, Recorded.outcome_bind_eq_ok] at h
  obtain ⟨⟨a, s₀⟩, hrelax, ⟨kind, s₁⟩, hclassify, h⟩ := h
  obtain ⟨c, hsolve, rfl⟩ := relax_eq_ok_iff.1 hrelax
  refine ⟨childNode p b s.tree.nextId a kind, a, s₁, ⟨c, hsolve, classify_classifies hclassify⟩,
    rfl, ?_⟩
  simp only at h
  split at h
  · rename_i hkind
    obtain rfl := hkind
    obtain rfl := by simpa using h
    rfl
  · rename_i hkind
    obtain rfl := by simpa using h
    rw [State.join, if_neg (show (childNode p b s.tree.nextId a kind).kind ≠ .branch from hkind)]
    rfl

/-! ## A node from the frontier -/

/-- What becomes of a state when the node `n` with number `id` is processed. -/
inductive Processes [PlainText K] (task : Task K σ) (s : State K σ) (id : ℕ) (n : Node K) :
    State K σ → Prop where
  /-- The node cannot improve on the incumbent. -/
  | closed
      (himproves : s.incumbent.canImprove (n.value.getD task.sense.worstValue) = false) :
      Processes task s id n (close s id)
  /-- There is nothing to branch on. -/
  | kept (himproves : s.incumbent.canImprove (n.value.getD task.sense.worstValue) = true)
      (hsplit : task.split? n.x = none) : Processes task s id n s
  /-- Both halves of the split become children. -/
  | split {d : Decision K} {low high : Node K} {a₁ a₂ : Answer K} {s₁ s₂ t₁ t₂ : State K σ}
      (himproves : s.incumbent.canImprove (n.value.getD task.sense.worstValue) = true)
      (hsplit : task.split? n.x = some d)
      (joinsLow : Joins task n (n.value.getD task.sense.worstValue) d.down s s₁ low a₁ t₁)
      (joinsHigh : Joins task n (n.value.getD task.sense.worstValue) d.up s₁ s₂ high a₂ t₂) :
      Processes task s id n s₂

/-- **Processing a node closes it, leaves it, or adds the two children of its split.** -/
theorem explore_processes [PlainText K] {id : ℕ} (h : (explore task s id).outcome = .ok s') :
    ∃ n, s.tree.node? id = some n ∧ Processes task s id n s' := by
  cases hn : s.tree.node? id with
  | none =>
      rw [explore, Tree.node, hn] at h
      cases h
  | some n =>
      refine ⟨n, rfl, ?_⟩
      rw [explore, Tree.node, hn] at h
      simp only [Except.mapError, Recorded.ofExcept_ok, Recorded.bind_ok, List.nil_append] at h
      split at h
      · rename_i himproves
        obtain rfl : close s id = s' := by simpa using h
        exact .closed (by simpa using himproves)
      · rename_i himproves
        have himproves : s.incumbent.canImprove (n.value.getD task.sense.worstValue) = true := by
          simpa using himproves
        split at h
        · rename_i hsplit
          obtain rfl : s = s' := by simpa using h
          exact .kept himproves hsplit
        · rename_i d hsplit
          simp only [Recorded.report_eq, Recorded.bind_ok, Recorded.outcome_bind_eq_ok] at h
          obtain ⟨s₁, hdown, hup⟩ := h
          obtain ⟨low, a₁, t₁, joinsLow⟩ := addChild_joins hdown
          obtain ⟨high, a₂, t₂, joinsHigh⟩ := addChild_joins hup
          exact .split himproves hsplit joinsLow joinsHigh

/-! ## The root -/

/-- The state in which the root is the only node. -/
def State.planted (task : Task K σ) (b : σ) (a : Answer K) (kind : NodeKind) : State K σ :=
  { State.initial task.sense b with
    rootValue := a.value
    tree := ⟨[rootNode a kind]⟩ }

/-- What becomes of the root whose relaxation was answered by `a`. -/
inductive Plants (task : Task K σ) (b : σ) (a : Answer K) : State K σ → Start → Prop where
  /-- There is no point. -/
  | infeasible (hverdict : a.verdict = .infeasible) :
      Plants task b a (.planted task b a .infeasible) .settled
  /-- The pivots ran out. -/
  | stalled (hverdict : a.verdict = .pivotLimit) :
      Plants task b a { State.planted task b a .infeasible with stalled := 1 } .settled
  /-- The point of the root is integral. -/
  | integral (hverdict : a.verdict = .optimal) (hsplit : task.split? a.x = none) :
      Plants task b a
        { State.planted task b a .optimal with
          incumbent :=
            (Incumbent.empty task.sense).update a.x (a.value.getD task.sense.worstValue) }
        .settled
  /-- The root is split. -/
  | fractional (hverdict : a.verdict = .optimal) (hsplit : task.split? a.x ≠ none) :
      Plants task b a
        { State.planted task b a .branch with
          frontier := (Frontier.empty task.sense).push 0 (a.value.getD task.sense.worstValue) }
        .growing

/-- **Starting asks for the relaxation without bounds and makes the root.** -/
theorem start_plants {b : σ} {st : Start} (h : (start task b).outcome = .ok (s, st)) :
    ∃ a c, (task.backend.solve b []).outcome = .ok (a, c) ∧ Plants task c a s st := by
  simp only [start, plantRoot, Recorded.report_eq, Recorded.bind_ok,
    Recorded.outcome_bind_eq_ok] at h
  obtain ⟨⟨a, s₁⟩, hrelax, hsettle⟩ := h
  obtain ⟨c, hsolve, rfl⟩ := relax_eq_ok_iff.1 hrelax
  refine ⟨a, c, hsolve, ?_⟩
  unfold settleRoot at hsettle
  split at hsettle
  · simp [Recorded.stop] at hsettle
  · rename_i hverdict
    obtain ⟨rfl, rfl⟩ := by simpa using hsettle
    exact .infeasible hverdict
  · rename_i hverdict
    obtain ⟨rfl, rfl⟩ := by simpa using hsettle
    exact .stalled hverdict
  · rename_i hverdict
    split at hsettle
    · rename_i hsplit
      obtain ⟨rfl, rfl⟩ := by simpa using hsettle
      exact .integral hverdict hsplit
    · rename_i d hsplit
      obtain ⟨rfl, rfl⟩ := by simpa using hsettle
      exact .fractional hverdict (hsplit ▸ Option.some_ne_none d)

end Search

end BranchBound
