import BranchBound.Proofs.Search.Inversion

/-!
# What a visit can do

Whatever the scalars and whatever the backend answers, processing a node of the frontier closes it,
leaves it as it is, or adds the two children of its split (`Processes.explored`).  A child opens
only if its relaxation has an optimum that is split again (`Fractional`).

The loop visits one node after the other until it stops (`Proceeds`), and the result is read off the
state it stops in (`solve_eq_ok_iff`).

What this means for the states between two visits is collected in `WellFormed`: a node is found
under its number, its bounds come from the splits on the way to it (`Path`), its parent is a node
that was split, and the open nodes have no children yet.  Every visit keeps this
(`WellFormed.visits`), and it holds of the root (`Rooted.wellFormed`).  What else holds of the root
and is kept by every visit holds where the search ends (`run_keeps`).
-/

namespace BranchBound

variable {K : Type} [Scalar K] {σ : Type}

namespace Search

open Relaxation

/-! ## The tree -/

namespace Tree

omit [Scalar K]

variable {t : Tree K} {n m : Node K} {id : ℕ}

/-- No node has this one as its parent. -/
def IsLeaf (t : Tree K) (id : ℕ) : Prop := ∀ n ∈ t.nodes, n.parent ≠ some id

theorem mem_nodes_iff : n ∈ t.nodes ↔ ∃ id, t.node? id = some n := List.mem_iff_getElem?

theorem lt_size_of_node? (h : t.node? id = some n) : id < t.size :=
  (List.getElem?_eq_some_iff.1 h).1

/-- After a push there are the nodes from before and the new one. -/
theorem node?_push_eq_some_iff (hid : n.id = t.nextId) :
    (t.push n).node? id = some m ↔ t.node? id = some m ∨ id = t.size ∧ m = n := by
  have hnew : ({ n with id := t.nextId } : Node K) = n := by rw [← hid]
  rcases lt_trichotomy id t.size with hlt | rfl | hgt
  · rw [node?_push_of_lt hlt]
    exact ⟨.inl, fun h => h.resolve_right fun h' => hlt.ne h'.1⟩
  · have hpush := node?_push_nextId t n
    rw [hnew] at hpush
    rw [show t.size = t.nextId from rfl, hpush]
    have hnone : t.node? t.nextId = none := List.getElem?_eq_none le_rfl
    simp [hnone, eq_comm]
  · have hnone : ∀ u : Tree K, u.size ≤ id → u.node? id = none := fun _ hu =>
      List.getElem?_eq_none hu
    rw [hnone t hgt.le, hnone (t.push n) (by rw [size_push]; exact hgt)]
    simp [hgt.ne']

/-- A push turns the leaf that is the new node's parent into a branching. -/
theorem isLeaf_push_iff : (t.push n).IsLeaf id ↔ t.IsLeaf id ∧ n.parent ≠ some id := by
  simp only [IsLeaf, push, List.mem_append, List.mem_singleton, or_imp, forall_and, forall_eq]

end Tree

/-! ## One child -/

variable {task : Task K σ} {s s' : State K σ} {parent n : Node K} {bound : Bound K}

/-- The relaxation of a node has an optimum, and the optimal point is split. -/
structure Fractional (task : Task K σ) (n : Node K) : Prop where
  answered : ∃ b a b', (task.backend.solve b n.bounds).outcome = .ok (a, b') ∧
    a.verdict = .optimal ∧ n.x = a.x
  splits : task.split? n.x ≠ none

/-- Counts only grow, and the incumbent is the one before or updated. -/
structure Learns (s s' : State K σ) : Prop where
  explored_eq : s'.explored = s.explored
  pruned_le : s.pruned ≤ s'.pruned
  stalled_le : s.stalled ≤ s'.stalled
  incumbent : s'.incumbent = s.incumbent ∨ ∃ x v, s'.incumbent = s.incumbent.update x v

/-- **A child opens only if its relaxation has an optimum that is split.**  Classifying only
learns. -/
theorem Classifies.learns {v : K} {a : Answer K} {kind : NodeKind}
    (h : Classifies task s v a kind s') : Learns s s' ∧
      (kind = .branch → a.verdict = .optimal ∧ task.split? a.x ≠ none) := by
  cases h with
  | infeasible _ => exact ⟨⟨rfl, le_rfl, le_rfl, .inl rfl⟩, by simp⟩
  | integer _ _ _ => exact ⟨⟨rfl, le_rfl, le_rfl, .inr ⟨_, _, rfl⟩⟩, by simp⟩
  | branch hverdict _ hsplit _ =>
      exact ⟨⟨rfl, le_rfl, le_rfl, .inl rfl⟩, fun _ => ⟨hverdict, hsplit⟩⟩
  | pruned _ _ _ _ => exact ⟨⟨rfl, Nat.le_succ _, le_rfl, .inl rfl⟩, by simp⟩
  | stalled _ _ => exact ⟨⟨rfl, le_rfl, Nat.le_succ _, .inl rfl⟩, by simp⟩

/-- The node is a child of `parent` under one more bound. -/
structure ChildOf (task : Task K σ) (parent : Node K) (bound : Bound K) (n : Node K) : Prop where
  parent_eq : n.parent = some parent.id
  bounds_eq : n.bounds = parent.bounds ++ [bound]
  depth_eq : n.depth = parent.depth + 1
  fractional : n.kind = .branch → Fractional task n

/-- The node joins the tree, and the frontier if it is a branch. -/
structure Adds (s s' : State K σ) (n : Node K) : Prop where
  id_eq : n.id = s.tree.nextId
  tree_eq : s'.tree = s.tree.push n
  frontier_eq : ∃ v,
    s'.frontier = if n.kind = .branch then s.frontier.push n.id v else s.frontier
  learns : Learns s s'

/-- **Adding a child adds one child.** -/
theorem Joins.adds [PlainText K] {v : K} {a : Answer K} {s₁ : State K σ}
    (h : Joins task parent v bound s s' n a s₁) : ChildOf task parent bound n ∧ Adds s s' n := by
  obtain ⟨⟨c, hsolve, hclassify⟩, hn, rfl⟩ := h
  obtain ⟨htree, hfrontier⟩ := hclassify.tree_eq
  obtain ⟨hlearns, hopen⟩ := hclassify.learns
  have hid : n.id = s.tree.nextId := by rw [hn]; rfl
  refine ⟨⟨by rw [hn]; rfl, by rw [hn]; rfl, by rw [hn]; rfl, fun hkind => ?_⟩,
    ⟨hid, congrArg (fun t => Tree.push t n) htree, ⟨n.value.getD v, ?_⟩,
      ⟨hlearns.explored_eq, hlearns.pruned_le, hlearns.stalled_le, hlearns.incumbent⟩⟩⟩
  · obtain ⟨hverdict, hsplit⟩ := hopen hkind
    have hx : n.x = a.x := by rw [hn]; rfl
    have hbounds : n.bounds = parent.bounds ++ [bound] := by rw [hn]; rfl
    exact ⟨⟨s.backend, a, c, hbounds ▸ hsolve, hverdict, hx⟩, hx ▸ hsplit⟩
  · rw [State.join, hfrontier]

/-! ## One node -/

/-- What becomes of a state when the node `n` with number `id` is processed. -/
inductive Explored (task : Task K σ) (s : State K σ) (id : ℕ) (n : Node K) :
    State K σ → Prop where
  /-- The node cannot improve on the incumbent. -/
  | closed : Explored task s id n (close s id)
  /-- There is nothing to branch on. -/
  | kept (h : task.split? n.x = none) : Explored task s id n s
  /-- Both halves of the split become children. -/
  | split {d : Decision K} {low high : Node K} {s₁ s₂ : State K σ}
      (h : task.split? n.x = some d)
      (childLow : ChildOf task n d.down low) (addsLow : Adds s s₁ low)
      (childHigh : ChildOf task n d.up high) (addsHigh : Adds s₁ s₂ high) :
      Explored task s id n s₂

omit [Scalar K] in
/-- Closing a node changes its kind. -/
theorem node?_close (s : State K σ) (id i : ℕ) : (close s id).tree.node? i =
    (s.tree.node? i).map fun n => { n with kind := if i = id then .pruned else n.kind } := by
  rw [close, Tree.node?_modify]
  by_cases hi : i = id
  · simp [hi]
  · rw [if_neg (Ne.symm hi)]
    simp [hi]

omit [Scalar K] in
theorem node?_close_of_eq {i : ℕ} (hn : s.tree.node? i = some n) (id : ℕ) :
    (close s id).tree.node? i = some { n with kind := if i = id then .pruned else n.kind } := by
  rw [node?_close, hn, Option.map_some]

omit [Scalar K] in
theorem exists_of_node?_close {id i : ℕ} {m : Node K} (hm : (close s id).tree.node? i = some m) :
    ∃ n, s.tree.node? i = some n ∧ m = { n with kind := if i = id then .pruned else n.kind } := by
  rw [node?_close] at hm
  obtain ⟨n, hn, rfl⟩ := Option.map_eq_some_iff.1 hm
  exact ⟨n, hn, rfl⟩

omit [Scalar K] in
theorem isLeaf_close {id i : ℕ} : (close s id).tree.IsLeaf i ↔ s.tree.IsLeaf i := by
  simp only [Tree.IsLeaf, Tree.mem_nodes_iff, node?_close, forall_exists_index]
  constructor
  · intro h n j hn
    exact h { n with kind := if j = id then .pruned else n.kind } j (by rw [hn, Option.map_some])
  · intro h m j hm
    obtain ⟨n, hn, rfl⟩ := Option.map_eq_some_iff.1 hm
    exact h n j hn

omit [Scalar K] in
/-- Closing a node changes the one entry of the tree that it is. -/
theorem exists_nodes_close {id : ℕ} (hn : s.tree.node? id = some n) : ∃ l₁ l₂,
    s.tree.nodes = l₁ ++ n :: l₂ ∧
      (close s id).tree.nodes = l₁ ++ { n with kind := .pruned } :: l₂ := by
  obtain ⟨l₁, m, l₂, hold, rfl, hnew⟩ := List.exists_of_modify
    (fun n : Node K => { n with kind := .pruned }) (Tree.lt_size_of_node? hn)
  obtain rfl : m = n := by
    rw [Tree.node?, hold] at hn
    simpa using hn
  exact ⟨l₁, l₂, hold, hnew⟩

/-- A node that is processed is closed, left as it is, or gets the two children of its split. -/
theorem Processes.explored [PlainText K] {id : ℕ} (h : Processes task s id n s') :
    Explored task s id n s' := by
  cases h with
  | closed _ => exact .closed
  | kept _ hsplit => exact .kept hsplit
  | split _ hsplit joinsLow joinsHigh =>
      obtain ⟨childLow, addsLow⟩ := joinsLow.adds
      obtain ⟨childHigh, addsHigh⟩ := joinsHigh.adds
      exact .split hsplit childLow addsLow childHigh addsHigh

/-- A snapshot changes no state. -/
theorem outcome_visit [PlainText K] (id : ℕ) (frontier : Frontier K) :
    (visit task s id frontier).outcome =
      (explore task { s with frontier := frontier, explored := s.explored + 1 } id).outcome := by
  have hsnapshot : ∀ s₁ : State K σ, (snapshot task s₁).outcome = .ok () := by
    intro s₁
    unfold snapshot
    split <;> rfl
  rw [visit, Recorded.outcome_bind]
  cases (explore task { s with frontier := frontier, explored := s.explored + 1 } id).outcome with
  | error _ => rfl
  | ok s₁ =>
      show (snapshot task s₁ >>= _).outcome = _
      rw [Recorded.outcome_bind, hsnapshot]
      rfl

/-- A visit counts the node that it takes from the frontier. -/
theorem explored_of_visit [PlainText K] {id : ℕ} {frontier : Frontier K}
    (h : (visit task s id frontier).outcome = .ok s') : s'.explored = s.explored + 1 := by
  rw [outcome_visit] at h
  obtain ⟨n, -, hprocesses⟩ := explore_processes h
  cases hprocesses.explored with
  | closed => rfl
  | kept => rfl
  | split _ _ addsLow _ addsHigh =>
      rw [addsHigh.learns.explored_eq, addsLow.learns.explored_eq]

omit [Scalar K] in
/-- Only a time limit makes a search late. -/
theorem Task.exists_of_isLate (task : Task K σ) {m : Moment} (h : task.isLate m = true) :
    ∃ l, task.settings.timeLimit = some l := by
  unfold Task.isLate at h
  split at h
  · cases h
  · rename_i l hl
    exact ⟨l, hl⟩

omit [Scalar K] in
theorem Task.isLate_eq_false {task : Task K σ} (h : task.settings.timeLimit = none) (m : Moment) :
    task.isLate m = false := by
  rw [Task.isLate, h]

/-! ## Several visits -/

/-- How a search goes on with a budget of nodes, and the limit it stops for. -/
inductive Proceeds [PlainText K] (task : Task K σ) :
    ℕ → State K σ → State K σ → Option Limit → Prop where
  /-- No node is open. -/
  | exhausted {m : ℕ} {s : State K σ} (hpop : s.frontier.pop? = none) : Proceeds task m s s none
  /-- A node is open, but the budget is used up. -/
  | spent {s : State K σ} {id : ℕ} {rest : Frontier K}
      (hpop : s.frontier.pop? = some (id, rest)) : Proceeds task 0 s s (some .nodes)
  /-- A node is open, but the time is over. -/
  | late {m : ℕ} {s : State K σ} {id : ℕ} {rest : Frontier K}
      (hpop : s.frontier.pop? = some (id, rest))
      (hlate : task.isLate (.beforeNode s.explored) = true) :
      Proceeds task (m + 1) s s (some .time)
  /-- A node is visited, and the search goes on. -/
  | next {m : ℕ} {s s₁ s' : State K σ} {limit : Option Limit} {id : ℕ} {rest : Frontier K}
      (hpop : s.frontier.pop? = some (id, rest))
      (hlate : task.isLate (.beforeNode s.explored) = false)
      (hvisit : (visit task s id rest).outcome = .ok s₁) (h : Proceeds task m s₁ s' limit) :
      Proceeds task (m + 1) s s' limit

/-- **The loop visits one node after the other until it stops.** -/
theorem grow_eq_ok_iff [PlainText K] {m : ℕ} {limit : Option Limit} :
    (grow task m s).outcome = .ok (s', limit) ↔ Proceeds task m s s' limit := by
  constructor
  · intro h
    induction m generalizing s with
    | zero =>
        rw [grow] at h
        split at h
        · rename_i hpop
          obtain ⟨rfl, rfl⟩ := by simpa using h
          exact .exhausted hpop
        · rename_i hpop
          obtain ⟨rfl, rfl⟩ := by simpa using h
          exact .spent hpop
    | succ m ih =>
        rw [grow] at h
        split at h
        · rename_i hpop
          obtain ⟨rfl, rfl⟩ := by simpa using h
          exact .exhausted hpop
        · rename_i hpop
          simp only at h
          split at h
          · rename_i hlate
            obtain ⟨rfl, rfl⟩ := by simpa using h
            exact .late hpop hlate
          · rename_i hlate
            obtain ⟨s₁, hvisit, h⟩ := Recorded.outcome_bind_eq_ok.1 h
            exact .next hpop (Bool.eq_false_iff.2 hlate) hvisit (ih h)
  · intro h
    induction h with
    | exhausted hpop =>
        rw [grow, hpop]
        rfl
    | spent hpop =>
        rw [grow, hpop]
        rfl
    | late hpop hlate =>
        rw [grow, hpop]
        simp only
        rw [if_pos hlate]
        rfl
    | next hpop hlate hvisit _ ih =>
        rw [grow, hpop]
        simp only
        rw [if_neg (Bool.eq_false_iff.1 hlate)]
        exact Recorded.outcome_bind_eq_ok.2 ⟨_, hvisit, ih⟩

/-- How a search runs: it is over with its root, or it proceeds from there. -/
inductive Runs [PlainText K] (task : Task K σ) (b : σ) : State K σ → Option Limit → Prop where
  /-- The root settles the search. -/
  | settled {s : State K σ} (hstart : (start task b).outcome = .ok (s, .settled)) :
      Runs task b s none
  /-- The root is open. -/
  | grown {s s' : State K σ} {limit : Option Limit}
      (hstart : (start task b).outcome = .ok (s, .growing))
      (hproceeds : Proceeds task task.settings.maxNodes s s' limit) : Runs task b s' limit

/-- **A search starts, and proceeds if the root is open.** -/
theorem run_eq_ok_iff [PlainText K] {b : σ} {limit : Option Limit} :
    (run task b).outcome = .ok (s, limit) ↔ Runs task b s limit := by
  constructor
  · intro h
    simp only [run, Recorded.outcome_bind_eq_ok] at h
    obtain ⟨⟨s₀, st⟩, hstart, h⟩ := h
    cases st with
    | settled =>
        obtain ⟨rfl, rfl⟩ : s₀ = s ∧ none = limit := by simpa using h
        exact .settled hstart
    | growing => exact .grown hstart (grow_eq_ok_iff.1 h)
  · intro h
    cases h with
    | settled hstart => exact Recorded.outcome_bind_eq_ok.2 ⟨(s, .settled), hstart, rfl⟩
    | grown hstart hproceeds =>
        exact Recorded.outcome_bind_eq_ok.2 ⟨(_, .growing), hstart, grow_eq_ok_iff.2 hproceeds⟩

/-- A search gives the result of the state it ends with. -/
theorem solve_eq_ok_iff [PlainText K] {b : σ} {solution : Solution K} :
    (solve task b).outcome = .ok solution ↔
      ∃ s limit, (run task b).outcome = .ok (s, limit) ∧ solution = finish task s limit := by
  simp only [solve, Recorded.outcome_bind_eq_ok]
  constructor
  · rintro ⟨⟨s, limit⟩, hrun, h⟩
    exact ⟨s, limit, hrun, by simpa [conclude] using h.symm⟩
  · rintro ⟨s, limit, hrun, rfl⟩
    exact ⟨(s, limit), hrun, rfl⟩

/-! ## The states between visits -/

/-- Bounds and depth of the nodes that splits lead to. -/
inductive Path (task : Task K σ) : List (Bound K) → ℕ → Prop where
  /-- The root has no bounds. -/
  | root : Path task [] 0
  /-- A child has one half of its parent's split as one more bound. -/
  | child {p : Node K} {d : Decision K} {b : Bound K} (path : Path task p.bounds p.depth)
      (fractional : Fractional task p) (split : task.split? p.x = some d)
      (half : b = d.down ∨ b = d.up) : Path task (p.bounds ++ [b]) (p.depth + 1)

/-- The node was split, and `n` is one of its children. -/
structure Parent (task : Task K σ) (p n : Node K) : Prop where
  fractional : Fractional task p
  half : ∃ d b, task.split? p.x = some d ∧ (b = d.down ∨ b = d.up) ∧ n.bounds = p.bounds ++ [b]

/-- What holds of tree and frontier between two visits. -/
structure WellFormed (task : Task K σ) (s : State K σ) : Prop where
  /-- A node is found under its number. -/
  id_eq : ∀ {i n}, s.tree.node? i = some n → n.id = i
  /-- The bounds of a node are those on the way to it. -/
  path : ∀ {i n}, s.tree.node? i = some n → Path task n.bounds n.depth
  /-- Branches are nodes that can be split. -/
  fractional : ∀ {i n}, s.tree.node? i = some n → n.kind = .branch → Fractional task n
  /-- The parent of a node is a node that was split. -/
  parent : ∀ {i n j}, s.tree.node? i = some n → n.parent = some j →
    ∃ p, s.tree.node? j = some p ∧ Parent task p n
  /-- Open nodes are branches without children. -/
  opened : ∀ e ∈ s.frontier.entries,
    (∃ n, s.tree.node? e.id = some n ∧ n.kind = .branch) ∧ s.tree.IsLeaf e.id
  /-- No node is open twice. -/
  nodup : (s.frontier.entries.map Entry.id).Nodup

namespace WellFormed

/-- A number that no node has yet is nobody's parent. -/
theorem isLeaf_of_size_le (h : WellFormed task s) {i : ℕ} (hi : s.tree.size ≤ i) :
    s.tree.IsLeaf i := by
  intro n hn hparent
  obtain ⟨j, hj⟩ := Tree.mem_nodes_iff.1 hn
  obtain ⟨p, hp, -⟩ := h.parent hj hparent
  exact absurd (Tree.lt_size_of_node? hp) (not_lt.2 hi)

/-- Open nodes are in the tree. -/
theorem id_lt_size (h : WellFormed task s) : ∀ e ∈ s.frontier.entries, e.id < s.tree.size := by
  intro e he
  obtain ⟨⟨n, hn, -⟩, -⟩ := h.opened e he
  exact Tree.lt_size_of_node? hn

/-- A node that is taken out of the frontier is a branch without children, and it is not open any
more. -/
theorem pop (h : WellFormed task s) {e : Entry K} {rest : Frontier K} (explored : ℕ)
    (hperm : s.frontier.entries.Perm (e :: rest.entries)) :
    WellFormed task { s with frontier := rest, explored := explored } ∧
      (∃ n, s.tree.node? e.id = some n ∧ n.kind = .branch) ∧ s.tree.IsLeaf e.id ∧
        ∀ d ∈ rest.entries, d.id ≠ e.id := by
  have hopened : ∀ d ∈ e :: rest.entries,
      (∃ n, s.tree.node? d.id = some n ∧ n.kind = .branch) ∧ s.tree.IsLeaf d.id :=
    fun d hd => h.opened d (hperm.mem_iff.2 hd)
  have hnodup := ((hperm.map Entry.id).nodup_iff).1 h.nodup
  rw [List.map_cons, List.nodup_cons] at hnodup
  obtain ⟨hbranch, hleaf⟩ := hopened e List.mem_cons_self
  refine ⟨⟨h.id_eq, h.path, h.fractional, h.parent,
    fun d hd => hopened d (List.mem_cons_of_mem _ hd), hnodup.2⟩, hbranch, hleaf, ?_⟩
  intro d hd heq
  exact hnodup.1 (List.mem_map.2 ⟨d, hd, heq⟩)

/-- Closing a node that is not open keeps everything. -/
theorem close {id : ℕ} (h : WellFormed task s) (hid : ∀ d ∈ s.frontier.entries, d.id ≠ id) :
    WellFormed task (close s id) := by
  refine ⟨?_, ?_, ?_, ?_, ?_, h.nodup⟩
  · intro i m hm
    obtain ⟨n, hn, rfl⟩ := exists_of_node?_close hm
    have hid := h.id_eq hn
    exact hid
  · intro i m hm
    obtain ⟨n, hn, rfl⟩ := exists_of_node?_close hm
    have hpath := h.path hn
    exact hpath
  · intro i m hm hkind
    obtain ⟨n, hn, rfl⟩ := exists_of_node?_close hm
    by_cases hi : i = id
    · simp [hi] at hkind
    · have hfrac := h.fractional hn (by simpa [hi] using hkind)
      exact ⟨hfrac.answered, hfrac.splits⟩
  · intro i m j hm hparent
    obtain ⟨n, hn, rfl⟩ := exists_of_node?_close hm
    obtain ⟨p, hp, hfrac, hhalf⟩ := h.parent hn hparent
    exact ⟨_, node?_close_of_eq hp id, ⟨hfrac.answered, hfrac.splits⟩, hhalf⟩
  · intro e he
    obtain ⟨⟨n, hn, hkind⟩, hleaf⟩ := h.opened e he
    refine ⟨⟨n, ?_, hkind⟩, isLeaf_close.2 hleaf⟩
    rw [node?_close, hn, Option.map_some, if_neg (hid e he)]

variable {p n : Node K} {d : Decision K} {b : Bound K} {id : ℕ}

/-- A child of a node that is not open joins the tree. -/
theorem adds (h : WellFormed task s) (hp : s.tree.node? id = some p)
    (hid : ∀ d ∈ s.frontier.entries, d.id ≠ id) (hfrac : Fractional task p)
    (hsplit : task.split? p.x = some d) (hhalf : b = d.down ∨ b = d.up)
    (hchild : ChildOf task p b n) (hadds : Adds s s' n) :
    WellFormed task s' ∧ s'.tree.node? id = some p ∧ ∀ d ∈ s'.frontier.entries, d.id ≠ id := by
  have hnode : ∀ {i : ℕ} {m : Node K},
      s'.tree.node? i = some m ↔ s.tree.node? i = some m ∨ i = s.tree.size ∧ m = n := by
    intro i m
    rw [hadds.tree_eq]
    exact Tree.node?_push_eq_some_iff hadds.id_eq
  have hlt := Tree.lt_size_of_node? hp
  have hnew : s'.tree.IsLeaf s.tree.size := by
    rw [hadds.tree_eq, Tree.isLeaf_push_iff, hchild.parent_eq, h.id_eq hp]
    exact ⟨h.isLeaf_of_size_le le_rfl, by simpa using hlt.ne⟩
  have hold : ∀ e ∈ s.frontier.entries,
      (∃ m, s'.tree.node? e.id = some m ∧ m.kind = .branch) ∧ s'.tree.IsLeaf e.id := by
    intro e he
    obtain ⟨⟨m, hm, hkind⟩, hleaf⟩ := h.opened e he
    refine ⟨⟨m, hnode.2 (.inl hm), hkind⟩, ?_⟩
    rw [hadds.tree_eq, Tree.isLeaf_push_iff, hchild.parent_eq, h.id_eq hp]
    exact ⟨hleaf, by simpa using (hid e he).symm⟩
  have hentries : s'.frontier.entries = s.frontier.entries ∨
      n.kind = .branch ∧ ∃ v, s'.frontier.entries = ⟨s.tree.size, v⟩ :: s.frontier.entries := by
    obtain ⟨v, hv⟩ := hadds.frontier_eq
    by_cases hkind : n.kind = .branch
    · rw [if_pos hkind, hadds.id_eq] at hv
      exact .inr ⟨hkind, v, by rw [hv]; rfl⟩
    · rw [if_neg hkind] at hv
      exact .inl (by rw [hv])
  refine ⟨⟨?_, ?_, ?_, ?_, ?_, ?_⟩, hnode.2 (.inl hp), ?_⟩
  · intro i m hm
    obtain hm | ⟨rfl, rfl⟩ := hnode.1 hm
    · exact h.id_eq hm
    · exact hadds.id_eq
  · intro i m hm
    obtain hm | ⟨-, rfl⟩ := hnode.1 hm
    · exact h.path hm
    · rw [hchild.bounds_eq, hchild.depth_eq]
      exact .child (h.path hp) hfrac hsplit hhalf
  · intro i m hm hkind
    obtain hm | ⟨-, rfl⟩ := hnode.1 hm
    · exact h.fractional hm hkind
    · exact hchild.fractional hkind
  · intro i m j hm hparent
    obtain hm | ⟨-, rfl⟩ := hnode.1 hm
    · obtain ⟨q, hq, hq'⟩ := h.parent hm hparent
      exact ⟨q, hnode.2 (.inl hq), hq'⟩
    · rw [hchild.parent_eq, h.id_eq hp] at hparent
      obtain rfl := Option.some.inj hparent
      exact ⟨p, hnode.2 (.inl hp), hfrac, d, b, hsplit, hhalf, hchild.bounds_eq⟩
  · intro e he
    obtain heq | ⟨hkind, v, heq⟩ := hentries
    · exact hold e (heq ▸ he)
    · rw [heq] at he
      rcases List.mem_cons.1 he with rfl | he
      · exact ⟨⟨n, hnode.2 (.inr ⟨rfl, rfl⟩), hkind⟩, hnew⟩
      · exact hold e he
  · obtain heq | ⟨-, v, heq⟩ := hentries
    · rw [heq]
      exact h.nodup
    · rw [heq, List.map_cons, List.nodup_cons]
      refine ⟨fun hmem => ?_, h.nodup⟩
      obtain ⟨e, he, heid⟩ := List.mem_map.1 hmem
      exact (h.id_lt_size e he).ne heid
  · intro e he
    obtain heq | ⟨-, v, heq⟩ := hentries
    · exact hid e (heq ▸ he)
    · rw [heq] at he
      rcases List.mem_cons.1 he with rfl | he
      · exact hlt.ne'
      · exact hid e he

/-- **Processing a branch that is not open any more keeps the state well-formed.** -/
theorem explored (h : WellFormed task s) (hn : s.tree.node? id = some n)
    (hkind : n.kind = .branch) (hid : ∀ d ∈ s.frontier.entries, d.id ≠ id)
    (hex : Explored task s id n s') : WellFormed task s' := by
  cases hex with
  | closed => exact h.close hid
  | kept => exact h
  | split hsplit childLow addsLow childHigh addsHigh =>
      have hfrac := h.fractional hn hkind
      obtain ⟨h₁, hn₁, hid₁⟩ := h.adds hn hid hfrac hsplit (.inl rfl) childLow addsLow
      exact (h₁.adds hn₁ hid₁ hfrac hsplit (.inr rfl) childHigh addsHigh).1

end WellFormed

/-- The branch `n` without children is taken from the frontier, which leaves `rest`, and is
processed. -/
structure Visits [PlainText K] (task : Task K σ) (s : State K σ) (e : Entry K) (rest : Frontier K)
    (n : Node K) (s' : State K σ) : Prop where
  entries : s.frontier.entries.Perm (e :: rest.entries)
  sense_eq : rest.sense = s.frontier.sense
  node : s.tree.node? e.id = some n
  kind_eq : n.kind = .branch
  isLeaf : s.tree.IsLeaf e.id
  notOpen : ∀ d ∈ rest.entries, d.id ≠ e.id
  processes :
    Processes task { s with frontier := rest, explored := s.explored + 1 } e.id n s'

/-- **A visit processes a branch without children, and keeps the state well-formed.** -/
theorem WellFormed.visits [PlainText K] (h : WellFormed task s) {id : ℕ} {rest : Frontier K}
    (hpop : s.frontier.pop? = some (id, rest)) (hvisit : (visit task s id rest).outcome = .ok s') :
    WellFormed task s' ∧ ∃ e n, e.id = id ∧ Visits task s e rest n s' := by
  obtain ⟨e, rfl, hperm, hsense⟩ := Frontier.perm_of_pop?_eq_some hpop
  obtain ⟨hwell, ⟨n, hn, hkind⟩, hleaf, hid⟩ := h.pop (s.explored + 1) hperm
  rw [outcome_visit] at hvisit
  obtain ⟨n', hn', hprocesses⟩ := explore_processes hvisit
  obtain rfl := Option.some.inj (hn.symm.trans hn')
  exact ⟨hwell.explored hn hkind hid hprocesses.explored,
    e, n, rfl, hperm, hsense, hn, hkind, hleaf, hid, hprocesses⟩

/-- A visit closes the branch, leaves it as it is, or gives it two children. -/
theorem WellFormed.visit [PlainText K] (h : WellFormed task s) {id : ℕ} {rest : Frontier K}
    (hpop : s.frontier.pop? = some (id, rest)) (hvisit : (visit task s id rest).outcome = .ok s') :
    WellFormed task s' ∧ s.tree.IsLeaf id ∧ ∃ n, s.tree.node? id = some n ∧ n.kind = .branch ∧
      Explored task { s with frontier := rest, explored := s.explored + 1 } id n s' := by
  obtain ⟨hwell, e, n, rfl, hvisits⟩ := h.visits hpop hvisit
  exact ⟨hwell, hvisits.isLeaf, n, hvisits.node, hvisits.kind_eq, hvisits.processes.explored⟩

/-! ## The root -/

/-- The tree is the root alone, which is open if the search goes on. -/
structure Rooted (task : Task K σ) (s : State K σ) (st : Start) (n : Node K) : Prop where
  tree_eq : s.tree = ⟨[n]⟩
  id_eq : n.id = 0
  parent_eq : n.parent = none
  bounds_eq : n.bounds = []
  depth_eq : n.depth = 0
  fractional : n.kind = .branch → Fractional task n
  explored_eq : s.explored = 0
  sense_eq : s.incumbent.sense = task.sense
  settled : st = .settled → s.frontier.entries = [] ∧ n.kind ≠ .branch
  growing : st = .growing → n.kind = .branch ∧ ∃ v, s.frontier.entries = [⟨0, v⟩]

/-- The root that starting makes is the only node. -/
theorem Plants.rooted {b c : σ} {a : Answer K} {st : Start}
    (hsolve : (task.backend.solve b []).outcome = .ok (a, c)) (h : Plants task c a s st) :
    ∃ n, Rooted task s st n := by
  cases h with
  | infeasible _ =>
      exact ⟨rootNode a .infeasible, rfl, rfl, rfl, rfl, rfl, by simp [rootNode], rfl, rfl,
        fun _ => ⟨rfl, by simp [rootNode]⟩, by simp⟩
  | stalled _ =>
      exact ⟨rootNode a .infeasible, rfl, rfl, rfl, rfl, rfl, by simp [rootNode], rfl, rfl,
        fun _ => ⟨rfl, by simp [rootNode]⟩, by simp⟩
  | integral _ _ =>
      exact ⟨rootNode a .optimal, rfl, rfl, rfl, rfl, rfl, by simp [rootNode], rfl, rfl,
        fun _ => ⟨rfl, by simp [rootNode]⟩, by simp⟩
  | fractional hverdict hsplit =>
      exact ⟨rootNode a .branch, rfl, rfl, rfl, rfl, rfl,
        fun _ => ⟨⟨_, a, c, hsolve, hverdict, rfl⟩, hsplit⟩, rfl, rfl, by simp,
        fun _ => ⟨rfl, _, rfl⟩⟩

theorem start_cases {b : σ} {st : Start} (h : (start task b).outcome = .ok (s, st)) :
    ∃ n, Rooted task s st n := by
  obtain ⟨a, c, hsolve, hplants⟩ := start_plants h
  exact hplants.rooted hsolve

namespace Rooted

variable {st : Start} {n : Node K}

theorem node?_eq_some_iff (h : Rooted task s st n) {i : ℕ} {m : Node K} :
    s.tree.node? i = some m ↔ i = 0 ∧ m = n := by
  rw [h.tree_eq]
  cases i with
  | zero => simp [Tree.node?, eq_comm]
  | succ i => simp [Tree.node?]

theorem isLeaf (h : Rooted task s st n) (i : ℕ) : s.tree.IsLeaf i := by
  intro m hm
  rw [h.tree_eq] at hm
  obtain rfl := List.mem_singleton.1 hm
  rw [h.parent_eq]
  simp

/-- The root alone is well-formed. -/
theorem wellFormed (h : Rooted task s st n) : WellFormed task s := by
  refine ⟨?_, ?_, ?_, ?_, ?_, ?_⟩
  · intro i m hm
    obtain ⟨rfl, rfl⟩ := h.node?_eq_some_iff.1 hm
    exact h.id_eq
  · intro i m hm
    obtain ⟨rfl, rfl⟩ := h.node?_eq_some_iff.1 hm
    rw [h.bounds_eq, h.depth_eq]
    exact .root
  · intro i m hm
    obtain ⟨rfl, rfl⟩ := h.node?_eq_some_iff.1 hm
    exact h.fractional
  · intro i m j hm hparent
    obtain ⟨rfl, rfl⟩ := h.node?_eq_some_iff.1 hm
    rw [h.parent_eq] at hparent
    cases hparent
  · intro e he
    cases st with
    | settled =>
        rw [(h.settled rfl).1] at he
        cases he
    | growing =>
        obtain ⟨hkind, v, hentries⟩ := h.growing rfl
        rw [hentries] at he
        obtain rfl := List.mem_singleton.1 he
        exact ⟨⟨n, h.node?_eq_some_iff.2 ⟨rfl, rfl⟩, hkind⟩, h.isLeaf 0⟩
  · cases st with
    | settled => simp [(h.settled rfl).1]
    | growing =>
        obtain ⟨-, v, hentries⟩ := h.growing rfl
        simp [hentries]

end Rooted

/-! ## The whole run -/

/-- Why a search ends: no node is open, or a node is open but the budget is used up or the time is
over. -/
inductive Halts (task : Task K σ) (s : State K σ) : Option Limit → Prop where
  /-- No node is open. -/
  | exhausted (hnone : s.frontier.entries = []) : Halts task s none
  /-- A node is open, but the budget is used up. -/
  | budget (hopen : s.frontier.entries ≠ []) (hbudget : s.explored = task.settings.maxNodes) :
      Halts task s (some .nodes)
  /-- A node is open, but the time is over. -/
  | late (hopen : s.frontier.entries ≠ [])
      (hlate : task.isLate (.beforeNode s.explored) = true) : Halts task s (some .time)

/-- The loop ends for one of these reasons. -/
theorem Proceeds.halts [PlainText K] {m : ℕ} {limit : Option Limit}
    (h : Proceeds task m s s' limit) (hbudget : s.explored + m = task.settings.maxNodes) :
    Halts task s' limit := by
  have hopen : ∀ {t : State K σ} {r : ℕ × Frontier K}, t.frontier.pop? = some r →
      t.frontier.entries ≠ [] := by
    intro t r hpop hentries
    rw [Frontier.pop?_eq_none_iff.2 hentries] at hpop
    cases hpop
  induction h with
  | exhausted hpop => exact .exhausted (Frontier.pop?_eq_none_iff.1 hpop)
  | spent hpop => exact .budget (hopen hpop) hbudget
  | late hpop hlate => exact .late (hopen hpop) hlate
  | next _ _ hvisit _ ih =>
      have hexplored := explored_of_visit hvisit
      exact ih (by omega)

/-- **What holds of the root and is kept by every visit holds where the search ends.**  Along with
it goes that the state is well-formed. -/
theorem run_keeps [PlainText K] {motive : State K σ → Prop} {b : σ} {limit : Option Limit}
    (root : ∀ {s a c st}, (task.backend.solve b []).outcome = .ok (a, c) →
      Plants task c a s st → motive s)
    (step : ∀ {s e rest n s'}, WellFormed task s → motive s → Visits task s e rest n s' →
      WellFormed task s' → motive s')
    (h : (run task b).outcome = .ok (s, limit)) :
    WellFormed task s ∧ motive s ∧ Halts task s limit := by
  have loop : ∀ {m : ℕ} {t t' : State K σ} {limit : Option Limit}, Proceeds task m t t' limit →
      WellFormed task t ∧ motive t → WellFormed task t' ∧ motive t' := by
    intro m t t' limit hproceeds ht
    induction hproceeds with
    | exhausted _ => exact ht
    | spent _ => exact ht
    | late _ _ => exact ht
    | next hpop _ hvisit _ ih =>
        obtain ⟨hwell, e, n, -, hvisits⟩ := ht.1.visits hpop hvisit
        exact ih ⟨hwell, step ht.1 ht.2 hvisits hwell⟩
  cases run_eq_ok_iff.1 h with
  | settled hstart =>
      obtain ⟨a, c, hsolve, hplants⟩ := start_plants hstart
      obtain ⟨n, hrooted⟩ := hplants.rooted hsolve
      exact ⟨hrooted.wellFormed, root hsolve hplants, .exhausted (hrooted.settled rfl).1⟩
  | grown hstart hproceeds =>
      obtain ⟨a, c, hsolve, hplants⟩ := start_plants hstart
      obtain ⟨n, hrooted⟩ := hplants.rooted hsolve
      obtain ⟨hwell, hkept⟩ := loop hproceeds ⟨hrooted.wellFormed, root hsolve hplants⟩
      exact ⟨hwell, hkept, hproceeds.halts (by rw [hrooted.explored_eq, Nat.zero_add])⟩

/-! ## Directions and values -/

/-- Frontier and incumbent work in the direction of the task, and open nodes wait with their own
values. -/
structure Aligned (task : Task K σ) (s : State K σ) : Prop where
  frontier_sense : s.frontier.sense = task.sense
  incumbent_sense : s.incumbent.sense = task.sense
  entry_value : ∀ e ∈ s.frontier.entries, ∃ n, s.tree.node? e.id = some n ∧
    e.value = n.value.getD task.sense.worstValue

/-- The root is made in the direction of the task. -/
theorem Plants.aligned {b : σ} {a : Answer K} {st : Start} (h : Plants task b a s st) :
    Aligned task s := by
  cases h with
  | infeasible _ => exact ⟨rfl, rfl, by simp [State.planted, State.initial, Frontier.empty]⟩
  | stalled _ => exact ⟨rfl, rfl, by simp [State.planted, State.initial, Frontier.empty]⟩
  | integral _ _ =>
      exact ⟨rfl, sense_update _ _ _, by simp [State.planted, State.initial, Frontier.empty]⟩
  | fractional _ _ =>
      refine ⟨rfl, rfl, fun e he => ?_⟩
      obtain rfl := List.mem_singleton.1 he
      exact ⟨_, rfl, rfl⟩

/-- A child that joins the tree waits with its own value. -/
theorem Joins.aligned [PlainText K] {v : K} {a : Answer K} {s₁ : State K σ}
    (h : Joins task parent v bound s s' n a s₁) (haligned : Aligned task s) :
    Aligned task s' := by
  obtain ⟨-, hadds⟩ := h.adds
  obtain ⟨⟨c, -, hclassify⟩, hn, rfl⟩ := h
  have hfrontier : s₁.frontier = s.frontier := hclassify.tree_eq.2
  have hold : ∀ e ∈ s.frontier.entries, ∃ m, (s₁.join n v).tree.node? e.id = some m ∧
      e.value = m.value.getD task.sense.worstValue := by
    intro e he
    obtain ⟨m, hm, hvalue⟩ := haligned.entry_value e he
    refine ⟨m, ?_, hvalue⟩
    rw [hadds.tree_eq]
    exact (Tree.node?_push_eq_some_iff hadds.id_eq).2 (.inl hm)
  refine ⟨?_, ?_, ?_⟩
  · rw [State.join, hfrontier]
    split <;> exact haligned.frontier_sense
  · show s₁.incumbent.sense = task.sense
    obtain heq | ⟨w, -, heq⟩ := hclassify.incumbent_cases
    · rw [heq]
      exact haligned.incumbent_sense
    · rw [heq, sense_update]
      exact haligned.incumbent_sense
  · intro e he
    rw [State.join, hfrontier] at he
    split at he
    · rename_i hkind
      rcases List.mem_cons.1 he with rfl | he
      · have hvalue : n.value ≠ none := by
          rw [hn]
          exact (hkind ▸ hclassify).value_ne_none
        obtain ⟨w, hw⟩ := Option.ne_none_iff_exists'.1 hvalue
        refine ⟨n, ?_, by simp [hw]⟩
        rw [hadds.tree_eq]
        exact (Tree.node?_push_eq_some_iff hadds.id_eq).2 (.inr ⟨hadds.id_eq, rfl⟩)
      · exact hold e he
    · exact hold e he

/-- **A visit keeps the directions and the values.** -/
theorem Visits.aligned [PlainText K] {e : Entry K} {rest : Frontier K}
    (h : Visits task s e rest n s') (haligned : Aligned task s) : Aligned task s' := by
  have hpopped : Aligned task { s with frontier := rest, explored := s.explored + 1 } :=
    ⟨h.sense_eq.trans haligned.frontier_sense, haligned.incumbent_sense,
      fun d hd => haligned.entry_value d (h.entries.mem_iff.2 (List.mem_cons_of_mem _ hd))⟩
  have hprocesses := h.processes
  cases hprocesses with
  | closed _ =>
      refine ⟨hpopped.frontier_sense, hpopped.incumbent_sense, fun d hd => ?_⟩
      obtain ⟨m, hm, hvalue⟩ := hpopped.entry_value d hd
      exact ⟨_, node?_close_of_eq hm e.id, hvalue⟩
  | kept _ _ => exact hpopped
  | split _ _ joinsLow joinsHigh => exact joinsHigh.aligned (joinsLow.aligned hpopped)

/-- Where a search ends directions and values are as they should be. -/
theorem run_aligned [PlainText K] {b : σ} {limit : Option Limit}
    (h : (run task b).outcome = .ok (s, limit)) : Aligned task s :=
  (run_keeps (fun _ hplants => hplants.aligned)
    (fun _ haligned hvisits _ => hvisits.aligned haligned) h).2.1

end Search

end BranchBound
