import BranchBound.Proofs.Search.Budget
import BranchBound.Proofs.Search.Gap

/-!
# The life of a node

A node gets its fields when it joins the tree, and all of them stay but its kind.  The kind of a
branch changes when the node is taken from the frontier and closed; nothing else ever changes a
node, and a node that is closed has no children then or later (`life_cycle`).

To say this of every moment, also of a search that fails in the middle of a split, the search is cut
into its smallest changes (`Moves`): a node is closed, or the first or the second child of a split
is added.  Whatever a search does it does by such moves: it ends where they lead (`run_reached`),
and where it fails it is the next move that fails (`run_fails`).  Each move alters the tree in one
of two ways, it closes a branch without children or adds one child to a branch (`Moves.alters`), and
what both of them keep holds ever after.
-/

namespace BranchBound

variable {K : Type} [Scalar K] {σ : Type}

namespace Search

open Relaxation

/-! ## Move by move -/

omit [Scalar K] in
/-- Where a search stands between two changes: at the head of its loop, or in the middle of a split,
when `p` with value `v` has its first child and is to get the second under the bound `b`. -/
inductive Juncture (K : Type) where
  | head
  | middle (p : Node K) (v : K) (b : Bound K)

variable {task : Task K σ} {b : σ} {s s' t : State K σ} {n p : Node K} {id : ℕ}

/-- The node that the frontier serves is taken out, which leads to the state `t`. -/
structure Takes (s : State K σ) (id : ℕ) (n : Node K) (t : State K σ) : Prop where
  takes : ∃ rest, s.frontier.pop? = some (id, rest) ∧
    t = { s with frontier := rest, explored := s.explored + 1 }
  node : s.tree.node? id = some n

/-- Taking a node out of the frontier leaves the tree as it is. -/
theorem Takes.node_after (h : Takes s id n t) : t.tree.node? id = some n := by
  obtain ⟨⟨rest, -, rfl⟩, hn⟩ := h
  exact hn

/-- The value that a node is explored with. -/
def Task.valueOf (task : Task K σ) (n : Node K) : K := n.value.getD task.sense.worstValue

variable [PlainText K]

/-- What a search does between one juncture and the next. -/
inductive Moves (task : Task K σ) : State K σ × Juncture K → State K σ × Juncture K → Prop where
  /-- The node that is taken cannot improve on the incumbent. -/
  | closes {s t : State K σ} {id : ℕ} {n : Node K} (htakes : Takes s id n t)
      (himproves : t.incumbent.canImprove (task.valueOf n) = false) :
      Moves task (s, .head) (close t id, .head)
  /-- There is nothing to branch on. -/
  | leaves {s t : State K σ} {id : ℕ} {n : Node K} (htakes : Takes s id n t)
      (himproves : t.incumbent.canImprove (task.valueOf n) = true)
      (hsplit : task.split? n.x = none) : Moves task (s, .head) (t, .head)
  /-- The first child of a split is added. -/
  | splits {s t t' : State K σ} {id : ℕ} {n : Node K} {d : Decision K} (htakes : Takes s id n t)
      (himproves : t.incumbent.canImprove (task.valueOf n) = true)
      (hsplit : task.split? n.x = some d)
      (hadd : (addChild task n (task.valueOf n) t d.down).outcome = .ok t') :
      Moves task (s, .head) (t', .middle n (task.valueOf n) d.up)
  /-- The second child of a split is added. -/
  | completes {s s' : State K σ} {p : Node K} {v : K} {b : Bound K}
      (hadd : (addChild task p v s b).outcome = .ok s') :
      Moves task (s, .middle p v b) (s', .head)

/-- The next move of a search fails. -/
inductive Fails (task : Task K σ) (reason : Breakdown) : State K σ × Juncture K → Prop where
  /-- The first child of a split cannot be added. -/
  | first {s t : State K σ} {id : ℕ} {n : Node K} {d : Decision K} (htakes : Takes s id n t)
      (himproves : t.incumbent.canImprove (task.valueOf n) = true)
      (hsplit : task.split? n.x = some d)
      (hadd : (addChild task n (task.valueOf n) t d.down).outcome = .error reason) :
      Fails task reason (s, .head)
  /-- The second child of a split cannot be added. -/
  | second {s : State K σ} {p : Node K} {v : K} {b : Bound K}
      (hadd : (addChild task p v s b).outcome = .error reason) :
      Fails task reason (s, .middle p v b)

/-- Moves of the search lead from its root to this juncture. -/
def Reached (task : Task K σ) (b : σ) (c : State K σ × Juncture K) : Prop :=
  ∃ s st, (start task b).outcome = .ok (s, st) ∧ Relation.ReflTransGen (Moves task) (s, .head) c

/-- Processing a node closes it, leaves it, or adds one child after the other. -/
theorem outcome_explore_cases (task : Task K σ) (hn : s.tree.node? id = some n) :
    (s.incumbent.canImprove (task.valueOf n) = false ∧
      (explore task s id).outcome = .ok (close s id)) ∨
    (s.incumbent.canImprove (task.valueOf n) = true ∧ task.split? n.x = none ∧
      (explore task s id).outcome = .ok s) ∨
    ∃ d, s.incumbent.canImprove (task.valueOf n) = true ∧ task.split? n.x = some d ∧
      (explore task s id).outcome = (addChild task n (task.valueOf n) s d.down).outcome >>=
        fun s₁ => (addChild task n (task.valueOf n) s₁ d.up).outcome := by
  rw [explore, Tree.node, hn]
  simp only [Except.mapError, Recorded.ofExcept_ok, Recorded.bind_ok, List.nil_append]
  rw [← Task.valueOf]
  by_cases himproves : s.incumbent.canImprove (task.valueOf n) = true
  · rw [if_neg (by rw [himproves]; simp)]
    right
    cases hsplit : task.split? n.x with
    | none => exact .inl ⟨himproves, rfl, rfl⟩
    | some d =>
        refine .inr ⟨d, himproves, rfl, ?_⟩
        simp only [Recorded.report_eq, Recorded.bind_ok, Recorded.outcome_bind]
  · rw [Bool.not_eq_true] at himproves
    rw [himproves]
    exact .inl ⟨rfl, rfl⟩

variable {rest : Frontier K} {reason : Breakdown}

/-- **A visit goes by moves.** -/
theorem visit_moves (hpop : s.frontier.pop? = some (id, rest)) (hn : s.tree.node? id = some n)
    (hvisit : (visit task s id rest).outcome = .ok s') :
    Relation.ReflTransGen (Moves task) (s, .head) (s', .head) := by
  have htakes : Takes s id n { s with frontier := rest, explored := s.explored + 1 } :=
    ⟨⟨rest, hpop, rfl⟩, hn⟩
  rw [outcome_visit] at hvisit
  obtain ⟨himproves, hout⟩ | ⟨himproves, hsplit, hout⟩ | ⟨d, himproves, hsplit, hout⟩ :=
    outcome_explore_cases task htakes.node_after
  · obtain rfl := Except.ok.inj (hout.symm.trans hvisit)
    exact .single (.closes htakes himproves)
  · obtain rfl := Except.ok.inj (hout.symm.trans hvisit)
    exact .single (.leaves htakes himproves hsplit)
  · rw [hout] at hvisit
    cases hlow : (addChild task n (task.valueOf n)
        { s with frontier := rest, explored := s.explored + 1 } d.down).outcome with
    | error reason =>
        rw [hlow] at hvisit
        cases hvisit
    | ok t =>
        rw [hlow] at hvisit
        exact .tail (.single (.splits htakes himproves hsplit hlow)) (.completes hvisit)

/-- **A visit that fails goes by moves up to the one that fails.** -/
theorem visit_fails (hpop : s.frontier.pop? = some (id, rest)) (hn : s.tree.node? id = some n)
    (hvisit : (visit task s id rest).outcome = .error reason) :
    ∃ c, Relation.ReflTransGen (Moves task) (s, .head) c ∧ Fails task reason c := by
  have htakes : Takes s id n { s with frontier := rest, explored := s.explored + 1 } :=
    ⟨⟨rest, hpop, rfl⟩, hn⟩
  rw [outcome_visit] at hvisit
  obtain ⟨-, hout⟩ | ⟨-, -, hout⟩ | ⟨d, himproves, hsplit, hout⟩ :=
    outcome_explore_cases task htakes.node_after
  · cases hout.symm.trans hvisit
  · cases hout.symm.trans hvisit
  · rw [hout] at hvisit
    cases hlow : (addChild task n (task.valueOf n)
        { s with frontier := rest, explored := s.explored + 1 } d.down).outcome with
    | error reason' =>
        rw [hlow] at hvisit
        obtain rfl := Except.error.inj hvisit
        exact ⟨_, .refl, .first htakes himproves hsplit hlow⟩
    | ok t =>
        rw [hlow] at hvisit
        exact ⟨_, .single (.splits htakes himproves hsplit hlow), .second hvisit⟩

/-- What a search does with a budget goes by moves. -/
theorem Proceeds.moves {m : ℕ} {limit : Option Limit} (h : Proceeds task m s s' limit)
    (hwell : WellFormed task s) : Relation.ReflTransGen (Moves task) (s, .head) (s', .head) := by
  induction h with
  | exhausted _ => exact .refl
  | spent _ => exact .refl
  | late _ _ => exact .refl
  | next hpop _ hvisit _ ih =>
      obtain ⟨hwell', e, n, rfl, hvisits⟩ := hwell.visits hpop hvisit
      exact (visit_moves hpop hvisits.node hvisit).trans (ih hwell')

/-- **A search ends where its moves lead.** -/
theorem run_reached {limit : Option Limit} (h : (run task b).outcome = .ok (s, limit)) :
    Reached task b (s, .head) := by
  cases run_eq_ok_iff.1 h with
  | settled hstart => exact ⟨_, _, hstart, .refl⟩
  | grown hstart hproceeds =>
      obtain ⟨n, hrooted⟩ := start_cases hstart
      exact ⟨_, _, hstart, hproceeds.moves hrooted.wellFormed⟩

/-- A loop that fails does so with one of its moves. -/
theorem grow_fails {m : ℕ} (hwell : WellFormed task s)
    (h : (grow task m s).outcome = .error reason) :
    ∃ c, Relation.ReflTransGen (Moves task) (s, .head) c ∧ Fails task reason c := by
  induction m generalizing s with
  | zero =>
      rw [grow] at h
      split at h <;> cases h
  | succ m ih =>
      rw [grow] at h
      split at h
      · cases h
      · rename_i id rest hpop
        simp only at h
        split at h
        · cases h
        · obtain ⟨e, rfl, hperm, -⟩ := Frontier.perm_of_pop?_eq_some hpop
          obtain ⟨⟨n, hn, -⟩, -⟩ := hwell.opened e (hperm.mem_iff.2 List.mem_cons_self)
          rw [Recorded.outcome_bind] at h
          cases hvisit : (visit task s e.id rest).outcome with
          | error reason' =>
              rw [hvisit] at h
              obtain rfl := Except.error.inj h
              exact visit_fails hpop hn hvisit
          | ok s₁ =>
              rw [hvisit] at h
              obtain ⟨c, hmoves, hfails⟩ := ih (hwell.visits hpop hvisit).1 h
              exact ⟨c, (visit_moves hpop hn hvisit).trans hmoves, hfails⟩

/-- **A search that fails has no root, or fails with one of its moves.** -/
theorem run_fails (h : (run task b).outcome = .error reason) :
    (start task b).outcome = .error reason ∨ ∃ c, Reached task b c ∧ Fails task reason c := by
  rw [run, Recorded.outcome_bind] at h
  cases hstart : (start task b).outcome with
  | error reason' =>
      rw [hstart] at h
      obtain rfl := Except.error.inj h
      exact .inl rfl
  | ok r =>
      obtain ⟨s, st⟩ := r
      rw [hstart] at h
      cases st with
      | settled => cases h
      | growing =>
          obtain ⟨n, hrooted⟩ := start_cases hstart
          obtain ⟨c, hmoves, hfails⟩ := grow_fails hrooted.wellFormed h
          exact .inr ⟨c, ⟨s, _, hstart, hmoves⟩, hfails⟩

/-! ## The kinds of nodes -/

omit [PlainText K] in
/-- A point is split unless the rule selects no variable for it. -/
theorem Task.split?_eq_none_iff (task : Task K σ) (x : List K) : task.split? x = none ↔
    Branching.select task.settings.branching task.objective task.settings.integralityTol x =
      none := by
  rw [Task.split?, Branching.split?]
  obtain ⟨hnone, -⟩ | ⟨c, hc, hsome⟩ := Branching.select_spec task.settings.branching
    task.objective task.settings.integralityTol x
  · rw [hnone]
    exact iff_of_true rfl rfl
  · obtain ⟨k, v, hk, hv, -⟩ := Branching.exists_value_of_mem_eligible hc
    rw [Nat.zero_add] at hk
    rw [hsome]
    refine iff_of_false ?_ (Option.some_ne_none _)
    show ¬ (x[c.1]? >>= _) = none
    rw [hk, hv]
    exact Option.some_ne_none _

omit [PlainText K] in
/-- The kind of a child goes with its relaxation: it is infeasible if there is no optimum, integral
if no variable is selected at the optimum, and open or pruned otherwise. -/
structure Node.KindFits (task : Task K σ) (n : Node K) : Prop where
  infeasible_iff : n.kind = .infeasible ↔ n.status ≠ .optimal
  integer_iff : n.kind = .integer ↔ n.status = .optimal ∧
    Branching.select task.settings.branching task.objective task.settings.integralityTol n.x = none
  otherwise : n.kind ≠ .infeasible → n.kind ≠ .integer → n.kind = .branch ∨ n.kind = .pruned

omit [PlainText K] in
/-- A branch that is pruned keeps a kind that fits. -/
theorem Node.KindFits.prune (h : n.KindFits task) (hkind : n.kind = .branch) :
    ({ n with kind := .pruned } : Node K).KindFits task := by
  have hinfeasible : ¬ n.status ≠ .optimal := fun hstatus => by
    rw [h.infeasible_iff.2 hstatus] at hkind
    cases hkind
  have hinteger := mt h.integer_iff.2 (by rw [hkind]; simp)
  exact ⟨by simpa using hinfeasible, by simpa using hinteger, fun _ _ => .inr rfl⟩

/-- **The kind that a child is given fits**, if the backend answers consistently. -/
theorem Joins.kindFits (hconsistent : task.backend.IsConsistent) {v : K} {bound : Bound K}
    {a : Answer K} {s₁ : State K σ} (h : Joins task p v bound s s' n a s₁) : n.KindFits task := by
  obtain ⟨⟨c, hsolve, hclassify⟩, hn, -⟩ := h
  have hanswer := hconsistent _ _ _ _ hsolve
  have hstatus : n.status = .optimal ↔ a.verdict = .optimal := by
    have hstatus : n.status = a.status := by rw [hn]; rfl
    rw [hstatus, hanswer.verdict_eq]
    cases a.status <;> simp [Verdict.ofStatus]
  have hx : n.x = a.x := by rw [hn]; rfl
  generalize hkind : n.kind = kind at hclassify
  have hfits : (kind = .infeasible ↔ a.verdict ≠ .optimal) ∧
      (kind = .integer ↔ a.verdict = .optimal ∧ task.split? a.x = none) ∧
      (kind ≠ .infeasible → kind ≠ .integer → kind = .branch ∨ kind = .pruned) := by
    cases hclassify with
    | infeasible hverdict => simp [hverdict]
    | integer hverdict _ hsplit => simp [hverdict, hsplit]
    | branch hverdict _ hsplit _ => simp [hverdict, hsplit]
    | pruned hverdict _ hsplit _ => simp [hverdict, hsplit]
    | stalled _ hvalueless =>
        have hverdict : a.verdict ≠ .optimal :=
          fun hoptimal => hanswer.value_iff.2 hoptimal (hvalueless hoptimal)
        simp [hverdict]
  rw [task.split?_eq_none_iff] at hfits
  refine ⟨?_, ?_, ?_⟩
  · rw [hkind, ne_eq, hstatus]
    exact hfits.1
  · rw [hkind, hstatus, hx]
    exact hfits.2.1
  · rw [hkind]
    exact hfits.2.2

omit [PlainText K] in
/-- The kinds of all nodes fit: the root is no longer unclassified, it is optimal only if it is
alone, and the kind of a child goes with its relaxation. -/
structure KindsFit (task : Task K σ) (nodes : List (Node K)) : Prop where
  ne_root : ∀ n ∈ nodes, n.kind ≠ .root
  alone : ∀ n ∈ nodes, n.kind = .optimal → nodes = [n]
  child : ∀ n ∈ nodes, n.parent ≠ none → n.KindFits task

omit [PlainText K] in
/-- Kinds fit, and only branches have children. -/
structure Sorted (task : Task K σ) (s : State K σ) : Prop where
  kinds : KindsFit task s.tree.nodes
  branch_of_parent : ∀ {i n j}, s.tree.node? i = some n → n.parent = some j →
    ∃ p, s.tree.node? j = some p ∧ p.kind = .branch

omit [PlainText K] in
/-- Where there is a branch no node is optimal. -/
theorem KindsFit.ne_optimal {nodes : List (Node K)} (h : KindsFit task nodes) (hn : n ∈ nodes)
    (hkind : n.kind = .branch) : ∀ m ∈ nodes, m.kind ≠ .optimal := by
  intro m hm hoptimal
  rw [h.alone m hm hoptimal, List.mem_singleton] at hn
  rw [hn, hoptimal] at hkind
  cases hkind

namespace Sorted

omit [PlainText K]

/-- A node that is not a branch has no children. -/
theorem isLeaf (h : Sorted task s) (hn : s.tree.node? id = some n) (hkind : n.kind ≠ .branch) :
    s.tree.IsLeaf id := by
  intro m hm hparent
  obtain ⟨i, hi⟩ := Tree.mem_nodes_iff.1 hm
  obtain ⟨q, hq, hbranch⟩ := h.branch_of_parent hi hparent
  obtain rfl := Option.some.inj (hn.symm.trans hq)
  exact hkind hbranch

/-- A branch without children may be closed. -/
theorem close (h : Sorted task s) (hn : s.tree.node? id = some n) (hkind : n.kind = .branch)
    (hleaf : s.tree.IsLeaf id) : Sorted task (close s id) := by
  have hnone := h.kinds.ne_optimal (Tree.mem_nodes_iff.2 ⟨id, hn⟩) hkind
  -- every node is one from before, and it is closed or stays as it is
  have hold : ∀ m ∈ (Search.close s id).tree.nodes, m = { n with kind := .pruned } ∨
      m ∈ s.tree.nodes := by
    intro m hm
    obtain ⟨l₁, l₂, hbefore, hafter⟩ := exists_nodes_close hn
    rw [hafter] at hm
    rw [hbefore]
    simp only [List.mem_append, List.mem_cons] at hm ⊢
    tauto
  refine ⟨⟨fun m hm => ?_, fun m hm hoptimal => ?_, fun m hm hparent => ?_⟩, ?_⟩
  · rcases hold m hm with rfl | hm
    · simp
    · exact h.kinds.ne_root m hm
  · rcases hold m hm with rfl | hm
    · cases hoptimal
    · exact absurd hoptimal (hnone m hm)
  · rcases hold m hm with rfl | hm
    · exact (h.kinds.child n (Tree.mem_nodes_iff.2 ⟨id, hn⟩) hparent).prune hkind
    · exact h.kinds.child m hm hparent
  · intro i m j hm hparent
    obtain ⟨m₀, hm₀, rfl⟩ := exists_of_node?_close hm
    obtain ⟨q, hq, hbranch⟩ := h.branch_of_parent hm₀ hparent
    have hj : j ≠ id := by
      rintro rfl
      exact hleaf m₀ (Tree.mem_nodes_iff.2 ⟨i, hm₀⟩) hparent
    have hq' := node?_close_of_eq hq id
    rw [if_neg hj] at hq'
    exact ⟨q, hq', hbranch⟩

/-- A branch may get a child whose kind fits. -/
theorem push (h : Sorted task s) (hp : s.tree.node? id = some p) (hkind : p.kind = .branch)
    (hparent : n.parent = some id) (hid : n.id = s.tree.nextId) (hfits : n.KindFits task) :
    Sorted task { s with tree := s.tree.push n } := by
  have hnone := h.kinds.ne_optimal (Tree.mem_nodes_iff.2 ⟨id, hp⟩) hkind
  have hnew : ∀ {i m}, (s.tree.push n).node? i = some m ↔
      s.tree.node? i = some m ∨ i = s.tree.size ∧ m = n :=
    Tree.node?_push_eq_some_iff hid
  have hmem : ∀ m ∈ (s.tree.push n).nodes, m ∈ s.tree.nodes ∨ m = n := by
    intro m hm
    obtain ⟨i, hi⟩ := Tree.mem_nodes_iff.1 hm
    exact (hnew.1 hi).imp (fun h => Tree.mem_nodes_iff.2 ⟨i, h⟩) fun h => h.2
  have hchild : n.kind ≠ .root ∧ n.kind ≠ .optimal := by
    have hotherwise := hfits.otherwise
    constructor <;> intro h <;> rw [h] at hotherwise <;> simp at hotherwise
  refine ⟨⟨fun m hm => ?_, fun m hm hoptimal => ?_, fun m hm hmparent => ?_⟩, ?_⟩
  · rcases hmem m hm with hm | rfl
    · exact h.kinds.ne_root m hm
    · exact hchild.1
  · rcases hmem m hm with hm | rfl
    · exact absurd hoptimal (hnone m hm)
    · exact absurd hoptimal hchild.2
  · rcases hmem m hm with hm | rfl
    · exact h.kinds.child m hm hmparent
    · exact hfits
  · intro i m j hm hmparent
    obtain hm | ⟨-, rfl⟩ := hnew.1 hm
    · obtain ⟨r, hr, hbranch⟩ := h.branch_of_parent hm hmparent
      exact ⟨r, hnew.2 (.inl hr), hbranch⟩
    · obtain rfl := Option.some.inj (hparent.symm.trans hmparent)
      exact ⟨p, hnew.2 (.inl hp), hkind⟩

end Sorted

/-! ## What a move alters -/

omit [PlainText K] in
/-- What a move does to the tree: nothing, or it closes a branch without children, or it adds a
child to a branch. -/
inductive Alters (task : Task K σ) (s s' : State K σ) : Prop where
  | nothing (tree_eq : s'.tree = s.tree)
  | closes {id : ℕ} {n : Node K} (node : s.tree.node? id = some n) (kind_eq : n.kind = .branch)
      (isLeaf : s.tree.IsLeaf id) (tree_eq : s'.tree = (close s id).tree)
  | adds {id : ℕ} {p n : Node K} (node : s.tree.node? id = some p) (kind_eq : p.kind = .branch)
      (parent_eq : n.parent = some id) (id_eq : n.id = s.tree.nextId) (fits : n.KindFits task)
      (tree_eq : s'.tree = s.tree.push n)

namespace Alters

omit [PlainText K]

/-- **A node stays as it is, unless it is a branch that is closed.** -/
theorem becomes (h : Alters task s s') {i : ℕ} {m : Node K} (hm : s.tree.node? i = some m) :
    ∃ m', s'.tree.node? i = some m' ∧ m.Becomes m' := by
  cases h with
  | nothing htree => exact ⟨m, htree ▸ hm, .inl rfl⟩
  | @closes id n hn hkind _ htree =>
      refine ⟨_, htree ▸ node?_close_of_eq hm id, ?_⟩
      by_cases hi : i = id
      · subst hi
        obtain rfl := Option.some.inj (hn.symm.trans hm)
        exact .inr ⟨hkind, by rw [if_pos rfl]⟩
      · exact .inl (by rw [if_neg hi])
  | adds _ _ _ hid _ htree =>
      exact ⟨m, htree ▸ (Tree.node?_push_eq_some_iff hid).2 (.inl hm), .inl rfl⟩

/-- **Kinds go on to fit, and only branches get children.** -/
theorem sorted (h : Alters task s s') (hsorted : Sorted task s) : Sorted task s' := by
  cases h with
  | nothing htree => exact ⟨htree ▸ hsorted.kinds, htree ▸ hsorted.branch_of_parent⟩
  | closes hn hkind hleaf htree =>
      have hclosed := hsorted.close hn hkind hleaf
      exact ⟨htree ▸ hclosed.kinds, htree ▸ hclosed.branch_of_parent⟩
  | adds hp hkind hparent hid hfits htree =>
      have hpushed := hsorted.push hp hkind hparent hid hfits
      exact ⟨htree ▸ hpushed.kinds, htree ▸ hpushed.branch_of_parent⟩

end Alters

omit [PlainText K] in
/-- What is known where a search stands: its state is well-formed, and in the middle of a split the
node that is split is a branch that is not open any more. -/
inductive Placed (task : Task K σ) : State K σ × Juncture K → Prop where
  | head {s : State K σ} (hwell : WellFormed task s) : Placed task (s, .head)
  | middle {s : State K σ} {id : ℕ} {p : Node K} {v : K} {d : Decision K}
      (hwell : WellFormed task s) (hnode : s.tree.node? id = some p) (hkind : p.kind = .branch)
      (hid : ∀ e ∈ s.frontier.entries, e.id ≠ id) (hsplit : task.split? p.x = some d) :
      Placed task (s, .middle p v d.up)

omit [PlainText K] in
/-- A node that is taken is a branch without children that is not open any more. -/
theorem Takes.placed (h : Takes s id n t) (hwell : WellFormed task s) :
    WellFormed task t ∧ t.tree.node? id = some n ∧ n.kind = .branch ∧ t.tree.IsLeaf id ∧
      ∀ e ∈ t.frontier.entries, e.id ≠ id := by
  obtain ⟨⟨rest, hpop, rfl⟩, hn⟩ := h
  obtain ⟨e, rfl, hperm, -⟩ := Frontier.perm_of_pop?_eq_some hpop
  obtain ⟨hwell', ⟨n', hn', hkind⟩, hleaf, hid⟩ := hwell.pop (s.explored + 1) hperm
  obtain rfl := Option.some.inj (hn.symm.trans hn')
  exact ⟨hwell', hn, hkind, hleaf, hid⟩

/-- **A move alters the tree in one of these ways.** -/
theorem Moves.alters (hconsistent : task.backend.IsConsistent) {c c' : State K σ × Juncture K}
    (h : Moves task c c') (hplaced : Placed task c) : Placed task c' ∧ Alters task c.1 c'.1 := by
  cases h with
  | closes htakes _ =>
      obtain ⟨hwell⟩ := hplaced
      obtain ⟨hwell', hn, hkind, hleaf, hid⟩ := htakes.placed hwell
      obtain ⟨rest, -, rfl⟩ := htakes.takes
      exact ⟨.head (hwell'.close hid), .closes hn hkind hleaf rfl⟩
  | leaves htakes _ _ =>
      obtain ⟨hwell⟩ := hplaced
      obtain ⟨hwell', -⟩ := htakes.placed hwell
      obtain ⟨rest, -, rfl⟩ := htakes.takes
      exact ⟨.head hwell', .nothing rfl⟩
  | splits htakes _ hsplit hadd =>
      obtain ⟨hwell⟩ := hplaced
      obtain ⟨hwell', hn, hkind, -, hid⟩ := htakes.placed hwell
      obtain ⟨rest, -, rfl⟩ := htakes.takes
      obtain ⟨low, a, s₁, hjoins⟩ := addChild_joins hadd
      obtain ⟨hchild, hadds⟩ := hjoins.adds
      obtain ⟨hwell'', hn', hid'⟩ := hwell'.adds hn hid (hwell'.fractional hn hkind) hsplit
        (.inl rfl) hchild hadds
      exact ⟨.middle hwell'' hn' hkind hid' hsplit, .adds hn hkind
        (hwell'.id_eq hn ▸ hchild.parent_eq) hadds.id_eq (hjoins.kindFits hconsistent)
        hadds.tree_eq⟩
  | completes hadd =>
      cases hplaced with
      | middle hwell hn hkind hid hsplit =>
          obtain ⟨high, a, s₁, hjoins⟩ := addChild_joins hadd
          obtain ⟨hchild, hadds⟩ := hjoins.adds
          obtain ⟨hwell', -⟩ := hwell.adds hn hid (hwell.fractional hn hkind) hsplit (.inr rfl)
            hchild hadds
          exact ⟨.head hwell', .adds hn hkind (hwell.id_eq hn ▸ hchild.parent_eq) hadds.id_eq
            (hjoins.kindFits hconsistent) hadds.tree_eq⟩

/-! ## From the root on -/

/-- **Whatever moves are made, nodes stay as they are but for branches that are closed.** -/
theorem keeps_of_moves (hconsistent : task.backend.IsConsistent) {c c' : State K σ × Juncture K}
    (hplaced : Placed task c) (hsorted : Sorted task c.1)
    (h : Relation.ReflTransGen (Moves task) c c') : Placed task c' ∧ Sorted task c'.1 ∧
      ∀ {i m}, c.1.tree.node? i = some m → ∃ m', c'.1.tree.node? i = some m' ∧ m.Becomes m' := by
  induction h with
  | refl => exact ⟨hplaced, hsorted, fun hm => ⟨_, hm, .inl rfl⟩⟩
  | tail _ hmove ih =>
      obtain ⟨hplaced', hsorted', hkeeps⟩ := ih
      obtain ⟨hplaced'', halters⟩ := hmove.alters hconsistent hplaced'
      refine ⟨hplaced'', halters.sorted hsorted', fun hm => ?_⟩
      obtain ⟨m', hm', hbecomes⟩ := hkeeps hm
      obtain ⟨m'', hm'', hbecomes'⟩ := halters.becomes hm'
      exact ⟨m'', hm'', hbecomes.trans hbecomes'⟩

omit [PlainText K] in
/-- The kind of the root fits. -/
theorem Plants.sorted {c : σ} {a : Answer K} {st : Start}
    (hsolve : (task.backend.solve b []).outcome = .ok (a, c)) (h : Plants task c a s st) :
    Sorted task s := by
  obtain ⟨n, hrooted⟩ := h.rooted hsolve
  have hkind : n.kind ≠ .root := by
    have hmem : n ∈ s.tree.nodes := by rw [hrooted.tree_eq]; exact List.mem_singleton.2 rfl
    cases h <;> obtain rfl := List.mem_singleton.1 hmem <;> simp [rootNode]
  refine ⟨⟨fun m hm => ?_, fun m hm _ => ?_, fun m hm hparent => ?_⟩, fun hm hparent => ?_⟩
  · rw [hrooted.tree_eq] at hm
    rwa [List.mem_singleton.1 hm]
  · rw [hrooted.tree_eq] at hm
    rw [hrooted.tree_eq, List.mem_singleton.1 hm]
  · rw [hrooted.tree_eq] at hm
    rw [List.mem_singleton.1 hm, hrooted.parent_eq] at hparent
    exact absurd rfl hparent
  · obtain ⟨-, rfl⟩ := hrooted.node?_eq_some_iff.1 hm
    rw [hrooted.parent_eq] at hparent
    cases hparent

/-- At every juncture that is reached kinds fit. -/
theorem Reached.placed_sorted (hconsistent : task.backend.IsConsistent)
    {c : State K σ × Juncture K} (h : Reached task b c) : Placed task c ∧ Sorted task c.1 := by
  obtain ⟨s, st, hstart, hmoves⟩ := h
  obtain ⟨a, d, hsolve, hplants⟩ := start_plants hstart
  obtain ⟨n, hrooted⟩ := hplants.rooted hsolve
  obtain ⟨hplaced, hsorted, -⟩ :=
    keeps_of_moves hconsistent (.head hrooted.wellFormed) (hplants.sorted hsolve) hmoves
  exact ⟨hplaced, hsorted⟩

/-- What can happen to the nodes of a search's tree, from any juncture it reaches to any later one,
and what their kinds are in the end. -/
structure LifeCycle (task : Task K σ) (b : σ) : Prop where
  /-- The search ends where its moves lead. -/
  ends : ∀ {s limit}, (run task b).outcome = .ok (s, limit) → Reached task b (s, .head)
  /-- A search that fails has no root, or fails with the next move. -/
  fails : ∀ {reason}, (run task b).outcome = .error reason →
    (start task b).outcome = .error reason ∨ ∃ c, Reached task b c ∧ Fails task reason c
  /-- A node keeps its place and its fields but the kind, and only a branch changes its kind: it is
  pruned. -/
  keeps : ∀ {c c'}, Reached task b c → Relation.ReflTransGen (Moves task) c c' →
    ∀ {i n}, c.1.tree.node? i = some n → ∃ n', c'.1.tree.node? i = some n' ∧
      (n' = n ∨ n.kind = .branch ∧ n' = { n with kind := .pruned })
  /-- A node that has changed had no children before, and has none and changes no more after. -/
  once : ∀ {c c' c''}, Reached task b c → Relation.ReflTransGen (Moves task) c c' →
    Relation.ReflTransGen (Moves task) c' c'' → ∀ {i n n'}, c.1.tree.node? i = some n →
      c'.1.tree.node? i = some n' → n' ≠ n →
        c.1.tree.IsLeaf i ∧ c''.1.tree.IsLeaf i ∧ c''.1.tree.node? i = some n'
  /-- The tree that is returned is the one at the end, and the kinds in it fit. -/
  returned : ∀ {solution}, (solve task b).outcome = .ok solution →
    (∃ s, Reached task b (s, .head) ∧ solution.tree = s.tree.nodes) ∧ KindsFit task solution.tree

/-- **The life of a node.**  If the backend answers consistently, then all that ever happens to a
node of the tree is that it is pruned: once, as a branch, and without children before or after.  In
the end the kind of every node goes with its relaxation. -/
theorem life_cycle (hconsistent : task.backend.IsConsistent) : LifeCycle task b where
  ends := run_reached
  fails := run_fails
  keeps hreached hmoves := by
    obtain ⟨hplaced, hsorted⟩ := hreached.placed_sorted hconsistent
    exact (keeps_of_moves hconsistent hplaced hsorted hmoves).2.2
  once {c c' c''} hreached hmoves hmoves' := by
    intro i n n' hn hn' hne
    obtain ⟨hplaced, hsorted⟩ := hreached.placed_sorted hconsistent
    obtain ⟨hplaced', hsorted', hkeeps⟩ := keeps_of_moves hconsistent hplaced hsorted hmoves
    obtain ⟨-, hsorted'', hkeeps'⟩ := keeps_of_moves hconsistent hplaced' hsorted' hmoves'
    obtain ⟨m, hm, hbecomes⟩ := hkeeps hn
    obtain rfl := Option.some.inj (hm.symm.trans hn')
    -- the node is pruned by now, so it has no children and is not pruned again
    obtain rfl | ⟨-, hpruned⟩ := hbecomes
    · exact absurd rfl hne
    have hkind : m.kind ≠ .branch := by rw [hpruned]; simp
    obtain ⟨m'', hm'', rfl | ⟨hbranch, -⟩⟩ := hkeeps' hm
    · refine ⟨?_, hsorted''.isLeaf hm'' hkind, hm''⟩
      intro k hk hparent
      obtain ⟨j, hj⟩ := Tree.mem_nodes_iff.1 hk
      obtain ⟨k', hk', rfl | ⟨-, rfl⟩⟩ := hkeeps hj
      · exact hsorted'.isLeaf hm hkind _ (Tree.mem_nodes_iff.2 ⟨j, hk'⟩) hparent
      · exact hsorted'.isLeaf hm hkind _ (Tree.mem_nodes_iff.2 ⟨j, hk'⟩) hparent
    · exact absurd hbranch hkind
  returned := by
    intro solution h
    obtain ⟨s, limit, hrun, rfl⟩ := solve_eq_ok_iff.1 h
    have hreached := run_reached hrun
    exact ⟨⟨s, hreached, rfl⟩, (hreached.placed_sorted hconsistent).2.kinds⟩

/-- In this search the root is split, its first child is pruned when the second gives a point that
is as good, and the second child is integral. -/
theorem boundReached_life_cycle :
    LifeCycle (boundReached.task halvesSettings fun _ => 0) 0 ∧
      ((solve (boundReached.task halvesSettings fun _ => 0) 0).outcome.map fun solution =>
        solution.tree.map Node.kind) = .ok [.branch, .pruned, .integer] :=
  ⟨life_cycle (simplexBackend_isConsistent _ _), by decide +kernel⟩

end Search

end BranchBound
