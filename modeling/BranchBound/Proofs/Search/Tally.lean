import BranchBound.Proofs.Search.Gap

/-!
# What the counts of a search count

The search keeps its counts in three places: nodes explored, pruned and stalled in the state, and
nodes added and taken out in the frontier.  All of them can be read off what the search returns and
reports (`counts_conserved`).  Pruned and stalled nodes are those that the tree shows as such, and
what was added to the frontier is what was taken out or is still open (`Counted`).  Each node that
was explored got two children, or was closed when it was taken, which the search reports
(`closings`); so the tree has one node and two more for each node with children
(`Tallied`, `IsTree.length_eq`).
-/

namespace BranchBound

variable {K : Type} [Scalar K] {σ : Type}

namespace Search

open Relaxation

/-! ## Nodes that are closed when they are taken -/

omit [Scalar K] in
/-- The node that was closed when it was taken from the frontier. -/
def Event.closing? : Event K → Option ℕ
  | .pruned id _ => some id
  | _ => none

omit [Scalar K] in
/-- The nodes that were closed when they were taken from the frontier, in order. -/
def closings (events : List (Event K)) : List ℕ := events.filterMap Event.closing?

omit [Scalar K] in
theorem closings_append (es es' : List (Event K)) :
    closings (es ++ es') = closings es ++ closings es' := List.filterMap_append

omit [Scalar K] in
/-- What the backend reports closes no node. -/
theorem closings_linear (es : List (Simplex.Event K)) : closings (es.map Event.linear) = [] := by
  simp [closings, Event.closing?]

omit [Scalar K] in
/-- Going on with a run that closes nothing adds nothing. -/
theorem closings_bind {α β : Type} {r : Run K α} {f : α → Run K β}
    (hf : ∀ a, closings (f a).events = []) : closings (r >>= f).events = closings r.events := by
  obtain ⟨es, out⟩ := r
  cases out with
  | error _ => rfl
  | ok a => rw [Recorded.bind_ok, closings_append, hf, List.append_nil]

variable {task : Task K σ} {b : σ} {s s' : State K σ} {n p : Node K} {nodes : List (Node K)}

omit [Scalar K] in
theorem closings_relax (task : Task K σ) (s : State K σ) (bounds : List (Bound K)) :
    closings (relax task s bounds).events = [] := by
  rw [relax, closings_bind]
  · rfl
  · intro _
    rw [closings_bind]
    · exact closings_linear _
    · exact fun _ => rfl

theorem closings_classify (task : Task K σ) (s : State K σ) (id : ℕ) (v : K) (a : Answer K) :
    closings (classify task s id v a).events = [] := by
  unfold classify
  split
  · rfl
  · split
    · split <;> rfl
    · split <;> rfl
  · rfl

theorem closings_settleRoot (task : Task K σ) (s : State K σ) (a : Answer K) :
    closings (settleRoot task s a).events = [] := by
  unfold settleRoot
  split
  · rfl
  · rfl
  · rfl
  · split <;> rfl

/-- Making the root closes nothing. -/
theorem closings_start (task : Task K σ) (b : σ) : closings (start task b).events = [] := by
  rw [start, closings_bind]
  · rfl
  · intro _
    rw [plantRoot, closings_bind]
    · exact closings_relax _ _ _
    · exact fun _ => closings_settleRoot _ _ _

theorem closings_snapshot (task : Task K σ) (s : State K σ) :
    closings (snapshot task s).events = [] := by
  unfold snapshot
  split <;> rfl

/-- Adding a child closes nothing. -/
theorem closings_addChild [PlainText K] (task : Task K σ) (p : Node K) (v : K) (s : State K σ)
    (bound : Bound K) : closings (addChild task p v s bound).events = [] := by
  rw [addChild, closings_bind]
  · exact closings_relax _ _ _
  · intro _
    rw [closings_bind]
    · exact closings_classify _ _ _ _ _
    · intro _
      simp only
      split <;> rfl

/-- **A visit closes the node that it takes exactly if it cannot improve on the incumbent.** -/
theorem closings_visit [PlainText K] {id : ℕ} {rest : Frontier K}
    (hn : s.tree.node? id = some n) : closings (visit task s id rest).events =
      if s.incumbent.canImprove (n.value.getD task.sense.worstValue) = true then [] else [id] := by
  rw [visit, closings_bind]
  · rw [explore, Tree.node, hn]
    simp only [Except.mapError, Recorded.ofExcept_ok, Recorded.bind_ok, List.nil_append]
    by_cases himproves : s.incumbent.canImprove (n.value.getD task.sense.worstValue) = true
    · rw [if_pos himproves, if_neg (by rw [himproves]; simp)]
      split
      · rfl
      · rw [closings_bind]
        · rfl
        · intro _
          rw [closings_bind]
          · exact closings_addChild _ _ _ _ _
          · exact fun _ => closings_addChild _ _ _ _ _
    · rw [if_neg himproves, if_pos (by rw [Bool.eq_false_iff.2 himproves]; rfl)]
      rfl
  · intro _
    rw [closings_bind]
    · exact closings_snapshot _ _
    · exact fun _ => rfl

/-! ## What holds of events and states -/

/-- **What holds of the root and is kept by every visit holds where the search ends**, also of the
events up to there. -/
theorem run_records [PlainText K] {motive : List (Event K) → State K σ → Prop}
    {limit : Option Limit}
    (root : ∀ {s a c st}, (task.backend.solve b []).outcome = .ok (a, c) →
      Plants task c a s st → motive (start task b).events s)
    (step : ∀ {es s s' id rest}, WellFormed task s → motive es s →
      s.frontier.pop? = some (id, rest) → (visit task s id rest).outcome = .ok s' →
        motive (es ++ (visit task s id rest).events) s')
    (h : (run task b).outcome = .ok (s, limit)) : motive (run task b).events s := by
  have loop : ∀ {m : ℕ} {t t' : State K σ} {limit : Option Limit}, Proceeds task m t t' limit →
      ∀ {es}, WellFormed task t → motive es t → motive (es ++ (grow task m t).events) t' := by
    intro m t t' limit hproceeds
    induction hproceeds with
    | exhausted hpop =>
        intro es _ ht
        rw [grow, hpop]
        exact (List.append_nil es).symm ▸ ht
    | spent hpop =>
        intro es _ ht
        rw [grow, hpop]
        exact (List.append_nil es).symm ▸ ht
    | late hpop hlate =>
        intro es _ ht
        rw [grow, hpop]
        simp only
        rw [if_pos hlate]
        exact (List.append_nil es).symm ▸ ht
    | next hpop hlate hvisit _ ih =>
        intro es hwell ht
        rw [grow, hpop]
        simp only
        rw [if_neg (Bool.eq_false_iff.1 hlate), Recorded.events_bind_ok hvisit,
          ← List.append_assoc]
        exact ih (hwell.visits hpop hvisit).1 (step hwell ht hpop hvisit)
  cases run_eq_ok_iff.1 h with
  | settled hstart =>
      obtain ⟨a, c, hsolve, hplants⟩ := start_plants hstart
      rw [run, Recorded.events_bind_ok hstart]
      exact (List.append_nil _).symm ▸ root hsolve hplants
  | grown hstart hproceeds =>
      obtain ⟨a, c, hsolve, hplants⟩ := start_plants hstart
      obtain ⟨n, hrooted⟩ := hplants.rooted hsolve
      rw [run, Recorded.events_bind_ok hstart]
      exact loop hproceeds hrooted.wellFormed (root hsolve hplants)

/-! ## Counts of nodes -/

omit [Scalar K] in
instance (n : Node K) : Decidable n.GaveUp :=
  inferInstanceAs (Decidable (n.status = .pivotLimit ∨ n.status = .unbounded))

omit [Scalar K] in
/-- The counts of the state are those of its nodes, and what was added to the frontier was taken out
or is still there. -/
structure Counted (s : State K σ) : Prop where
  pruned_eq : s.pruned = s.tree.nodes.countP fun n => n.kind = .pruned
  stalled_eq : s.stalled = s.tree.nodes.countP fun n => n.GaveUp
  added_eq : s.frontier.added = s.frontier.popped + s.frontier.size

/-- Taking a node out of the frontier is counted. -/
theorem Frontier.counts_of_pop?_eq_some {f rest : Frontier K} {id : ℕ}
    (h : f.pop? = some (id, rest)) : rest.added = f.added ∧ rest.popped = f.popped + 1 := by
  simp only [Frontier.pop?, Option.map_eq_some_iff, Prod.mk.injEq] at h
  obtain ⟨⟨best, others⟩, -, -, rfl⟩ := h
  exact ⟨rfl, rfl⟩

omit [Scalar K] in
/-- A consistent answer gives up exactly if it decides nothing. -/
theorem gaveUp_iff_verdict {a : Answer K} (ha : a.IsConsistent) :
    (a.status = .pivotLimit ∨ a.status = .unbounded) ↔
      a.verdict ≠ .infeasible ∧ a.verdict ≠ .optimal := by
  rw [ha.verdict_eq]
  cases a.status <;> simp [Verdict.ofStatus]

/-- Classifying a child counts it if it is pruned, and if its relaxation was given up. -/
theorem Classifies.counts {v : K} {a : Answer K} {kind : NodeKind} (ha : a.IsConsistent)
    (h : Classifies task s v a kind s') :
    s'.pruned = s.pruned + (if kind = .pruned then 1 else 0) ∧
      s'.stalled =
        s.stalled + if a.status = .pivotLimit ∨ a.status = .unbounded then 1 else 0 := by
  simp only [gaveUp_iff_verdict ha]
  cases h with
  | infeasible hinfeasible => simp [hinfeasible]
  | integer hoptimal _ _ => simp [hoptimal]
  | branch hoptimal _ _ _ => simp [hoptimal]
  | pruned hoptimal _ _ _ => simp [hoptimal]
  | stalled hfeasible hvalueless =>
      have hoptimal : a.verdict ≠ .optimal :=
        fun hoptimal => ha.value_iff.2 hoptimal (hvalueless hoptimal)
      simp [hfeasible, hoptimal, noteStall]

namespace Counted

/-- A child that joins the tree is counted. -/
theorem joins [PlainText K] (hconsistent : task.backend.IsConsistent) (h : Counted s) {v : K}
    {bound : Bound K} {a : Answer K} {s₁ : State K σ} (hjoins : Joins task p v bound s s' n a s₁) :
    Counted s' ∧ s'.explored = s.explored ∧ s'.frontier.popped = s.frontier.popped ∧
      s'.tree.size = s.tree.size + 1 := by
  obtain ⟨-, -, hnodes⟩ := hjoins.isChild
  obtain ⟨-, hadds⟩ := hjoins.adds
  have hexplored := hadds.learns.explored_eq
  obtain ⟨w, hfrontier⟩ := hadds.frontier_eq
  obtain ⟨⟨c, hsolve, hclassify⟩, hn, rfl⟩ := hjoins
  have hstatus : n.status = a.status := by rw [hn]; rfl
  obtain ⟨hpruned, hstalled⟩ := hclassify.counts (hconsistent _ _ _ _ hsolve)
  have hpopped : (s₁.join n v).frontier.popped = s.frontier.popped := by
    rw [hfrontier]
    split <;> rfl
  refine ⟨⟨?_, ?_, ?_⟩, hexplored, hpopped, ?_⟩
  · rw [hnodes, List.countP_append, List.countP_singleton, ← h.pruned_eq]
    simpa [State.join] using hpruned
  · rw [hnodes, List.countP_append, List.countP_singleton, ← h.stalled_eq]
    simpa [State.join, Node.GaveUp, hstatus] using hstalled
  · have hadded := h.added_eq
    rw [hpopped, hfrontier]
    split
    · simp only [Frontier.push, Frontier.size, List.length_cons] at hadded ⊢
      omega
    · exact hadded
  · rw [Tree.size, hnodes, List.length_append]
    rfl

omit [Scalar K] in
/-- A branch that is closed is counted. -/
theorem close (h : Counted s) {id : ℕ} (hn : s.tree.node? id = some n) (hkind : n.kind = .branch) :
    Counted (close s id) := by
  obtain ⟨l₁, l₂, hold, hclosed⟩ := exists_nodes_close hn
  refine ⟨?_, ?_, h.added_eq⟩
  · show s.pruned + 1 = _
    rw [hclosed, h.pruned_eq, hold]
    simp only [List.countP_append, List.countP_cons, hkind]
    simp only [reduceCtorEq, decide_false, decide_true, Bool.false_eq_true, if_true, if_false]
    omega
  · show s.stalled = _
    rw [hclosed, h.stalled_eq, hold]
    simp only [List.countP_append, List.countP_cons]
    rfl

/-- At the root only the root can count. -/
theorem root (hconsistent : task.backend.IsConsistent) {c : σ} {a : Answer K} {st : Start}
    (hsolve : (task.backend.solve b []).outcome = .ok (a, c)) (h : Plants task c a s st) :
    Counted s := by
  have hgave := gaveUp_iff_verdict (hconsistent _ _ _ _ hsolve)
  cases h with
  | infeasible hverdict =>
      exact ⟨rfl, by simp [State.planted, State.initial, rootNode, Node.GaveUp,
        Node.withRelaxation, hgave, hverdict], rfl⟩
  | stalled hverdict =>
      exact ⟨rfl, by simp [State.planted, rootNode, Node.GaveUp, Node.withRelaxation, hgave,
        hverdict], rfl⟩
  | integral hverdict _ =>
      exact ⟨rfl, by simp [State.planted, State.initial, rootNode, Node.GaveUp,
        Node.withRelaxation, hgave, hverdict], rfl⟩
  | fractional hverdict _ =>
      exact ⟨rfl, by simp [State.planted, State.initial, rootNode, Node.GaveUp,
        Node.withRelaxation, hgave, hverdict], rfl⟩

/-- Taking a node out of the frontier keeps the counts. -/
theorem pop (h : Counted s) {id : ℕ} {rest : Frontier K}
    (hpop : s.frontier.pop? = some (id, rest)) (explored : ℕ) :
    Counted { s with frontier := rest, explored := explored } := by
  obtain ⟨hadded, hpopped⟩ := Frontier.counts_of_pop?_eq_some hpop
  have hsize := Frontier.size_of_pop?_eq_some hpop
  have := h.added_eq
  refine ⟨h.pruned_eq, h.stalled_eq, ?_⟩
  show rest.added = rest.popped + rest.size
  omega

end Counted

/-! ## Nodes explored -/

/-- Each node that was explored was taken from the frontier, and got two children unless it was
closed, which the events tell. -/
structure Tallied (es : List (Event K)) (s : State K σ) : Prop extends Counted s where
  popped_eq : s.frontier.popped = s.explored
  size_eq : s.tree.size + 2 * (closings es).length = 1 + 2 * s.explored
  nodup : (closings es).Nodup
  closed : ∀ i ∈ closings es, ∃ n, s.tree.node? i = some n ∧ n.kind = .pruned

/-- No node is explored when the root is made. -/
theorem Tallied.root (hconsistent : task.backend.IsConsistent) {c : σ} {a : Answer K} {st : Start}
    (hsolve : (task.backend.solve b []).outcome = .ok (a, c)) (h : Plants task c a s st) :
    Tallied (start task b).events s := by
  refine ⟨.root hconsistent hsolve h, ?_, ?_, ?_, ?_⟩
  · cases h <;> rfl
  · rw [closings_start]
    cases h <;> rfl
  · rw [closings_start]
    exact List.nodup_nil
  · rw [closings_start]
    simp

namespace Tallied

variable {es : List (Event K)} {id : ℕ} {rest : Frontier K}

/-- A branch that is taken and closed was not closed before. -/
theorem close (h : Tallied es s) (hn : s.tree.node? id = some n) (hkind : n.kind = .branch)
    (hpop : s.frontier.pop? = some (id, rest)) {es' : List (Event K)} (hes : closings es' = [id]) :
    Tallied (es ++ es')
      (Search.close { s with frontier := rest, explored := s.explored + 1 } id) := by
  have hpopped := (Frontier.counts_of_pop?_eq_some hpop).2
  have hpopped_eq := h.popped_eq
  have hsize := h.size_eq
  have hclosings : closings (es ++ es') = closings es ++ [id] := by
    rw [closings_append, hes]
  have hnew : id ∉ closings es := by
    intro hmem
    obtain ⟨m, hm, hpruned⟩ := h.closed id hmem
    obtain rfl := Option.some.inj (hn.symm.trans hm)
    rw [hkind] at hpruned
    cases hpruned
  refine ⟨(h.toCounted.pop hpop _).close hn hkind, ?_, ?_, ?_, ?_⟩
  · show rest.popped = s.explored + 1
    omega
  · rw [hclosings, List.length_append, List.length_singleton]
    show (s.tree.modify id _).size + _ = 1 + 2 * (s.explored + 1)
    rw [Tree.size_modify]
    omega
  · rw [hclosings, ← List.concat_eq_append]
    exact h.nodup.concat hnew
  · intro i hi
    rw [hclosings] at hi
    rcases List.mem_append.1 hi with hi | hi
    · obtain ⟨m, hm, hpruned⟩ := h.closed i hi
      refine ⟨_, node?_close_of_eq hm id, ?_⟩
      simp [hpruned]
    · obtain rfl := List.mem_singleton.1 hi
      exact ⟨_, node?_close_of_eq hn i, by simp⟩

variable [PlainText K] (hconsistent : task.backend.IsConsistent)
include hconsistent

/-- A branch that is taken and split has two children. -/
theorem split (h : Tallied es s) (hpop : s.frontier.pop? = some (id, rest))
    {es' : List (Event K)} (hes : closings es' = []) {low high : Node K} {v : K}
    {down up : Bound K} {a₁ a₂ : Answer K} {s₁ t₁ t₂ : State K σ}
    (joinsLow : Joins task n v down { s with frontier := rest, explored := s.explored + 1 } s₁ low
      a₁ t₁)
    (joinsHigh : Joins task n v up s₁ s' high a₂ t₂) : Tallied (es ++ es') s' := by
  have hpopped := (Frontier.counts_of_pop?_eq_some hpop).2
  have hpopped_eq := h.popped_eq
  have hsize := h.size_eq
  have hclosings : closings (es ++ es') = closings es := by
    rw [closings_append, hes, List.append_nil]
  obtain ⟨hcounted₁, hexplored₁, hpopped₁, hsize₁⟩ :=
    (h.toCounted.pop hpop (s.explored + 1)).joins hconsistent joinsLow
  obtain ⟨hcounted₂, hexplored₂, hpopped₂, hsize₂⟩ := hcounted₁.joins hconsistent joinsHigh
  simp only at hexplored₁ hpopped₁ hsize₁
  refine ⟨hcounted₂, by omega, by rw [hclosings]; omega, hclosings.symm ▸ h.nodup, ?_⟩
  intro i hi
  obtain ⟨m, hm, hpruned⟩ := h.closed i (hclosings ▸ hi)
  have hlt := Tree.lt_size_of_node? hm
  refine ⟨m, ?_, hpruned⟩
  rw [joinsHigh.adds.2.tree_eq, Tree.node?_push_of_lt (by omega), joinsLow.adds.2.tree_eq,
    Tree.node?_push_of_lt hlt, hm]

/-- **A visit explores one node.** -/
theorem visit (hwell : WellFormed task s) (h : Tallied es s)
    (hpop : s.frontier.pop? = some (id, rest))
    (hvisit : (visit task s id rest).outcome = .ok s') :
    Tallied (es ++ (Search.visit task s id rest).events) s' := by
  obtain ⟨-, e, n, rfl, hvisits⟩ := hwell.visits hpop hvisit
  have hclosings : closings (Search.visit task s e.id rest).events = _ :=
    closings_visit hvisits.node
  have hprocesses := hvisits.processes
  cases hprocesses with
  | closed himproves =>
      rw [if_neg (Bool.eq_false_iff.1 himproves)] at hclosings
      exact h.close hvisits.node hvisits.kind_eq hpop hclosings
  | kept _ hsplit =>
      exact absurd hsplit (hwell.fractional hvisits.node hvisits.kind_eq).splits
  | split himproves _ joinsLow joinsHigh =>
      rw [if_pos himproves] at hclosings
      exact h.split hconsistent hpop hclosings joinsLow joinsHigh

end Tallied

/-! ## Counting by number -/

omit [Scalar K] in
/-- Some node of the list has this one as its parent. -/
def Node.HasChildrenIn (nodes : List (Node K)) (n : Node K) : Prop :=
  ∃ m ∈ nodes, m.parent = some n.id

omit [Scalar K] in
instance (nodes : List (Node K)) (n : Node K) : Decidable (n.HasChildrenIn nodes) :=
  inferInstanceAs (Decidable (∃ m ∈ nodes, m.parent = some n.id))

omit [Scalar K] in
instance (nodes : List (Node K)) (n : Node K) : Decidable (n.IsOpenIn nodes) :=
  inferInstanceAs (Decidable (n.kind = .branch ∧ ∀ m ∈ nodes, m.parent ≠ some n.id))

omit [Scalar K] in
/-- If nodes have their places as numbers, then as many have a property as there are numbers of
such nodes. -/
theorem countP_eq_length (hid : ∀ {i : ℕ} {n : Node K}, nodes[i]? = some n → n.id = i)
    {q : Node K → Bool} {ids : List ℕ} (hnodup : ids.Nodup)
    (hmem : ∀ i, i ∈ ids ↔ ∃ n, nodes[i]? = some n ∧ q n = true) :
    nodes.countP q = ids.length := by
  have hids : (nodes.map Node.id).Nodup := by
    have hrange : nodes.map Node.id = List.range nodes.length := by
      refine List.ext_getElem? fun i => ?_
      rw [List.getElem?_map]
      cases hn : nodes[i]? with
      | none => simpa using List.getElem?_eq_none_iff.1 hn
      | some n =>
          rw [Option.map_some, hid hn, List.getElem?_range (List.getElem?_eq_some_iff.1 hn).1]
    rw [hrange]
    exact List.nodup_range
  have hperm : ((nodes.filter q).map Node.id).Perm ids := by
    refine (List.perm_ext_iff_of_nodup ?_ hnodup).2 fun i => ?_
    · exact hids.sublist (List.filter_sublist.map Node.id)
    · rw [hmem, List.mem_map]
      constructor
      · rintro ⟨n, hn, rfl⟩
        obtain ⟨hn, hq⟩ := List.mem_filter.1 hn
        obtain ⟨j, hj⟩ := List.mem_iff_getElem?.1 hn
        exact ⟨n, hid hj ▸ hj, hq⟩
      · rintro ⟨n, hn, hq⟩
        exact ⟨n, List.mem_filter.2 ⟨List.mem_of_getElem? hn, hq⟩, hid hn⟩
  rw [List.countP_eq_length_filter, ← hperm.length_eq, List.length_map]

omit [Scalar K] in
/-- The number of the parent of the `k`-th pair of nodes. -/
def pairParent (nodes : List (Node K)) (k : ℕ) : ℕ :=
  ((nodes[2 * k + 1]?).bind Node.parent).getD 0

/-- Both nodes of a pair have the same parent. -/
theorem IsTree.exists_pair [PlainText K] (h : IsTree task nodes) {k : ℕ}
    (hk : 2 * k + 1 < nodes.length) : ∃ low high : Node K,
      nodes[2 * k + 1]? = some low ∧ nodes[2 * k + 2]? = some high ∧
        low.parent = some (pairParent nodes k) ∧ high.parent = some (pairParent nodes k) ∧
          ∃ p, nodes[pairParent nodes k]? = some p := by
  obtain ⟨p, low, high, hlow, hhigh, -, hp, -, hhalves⟩ := h.pair k hk
  obtain ⟨hlowParent, hhighParent⟩ := hhalves.parent_eq
  have hparent : pairParent nodes k = p.id := by
    rw [pairParent, hlow, Option.bind_some, hlowParent, Option.getD_some]
  rw [hparent]
  exact ⟨low, high, hlow, hhigh, hlowParent, hhighParent, p, hp⟩

/-- The parent of a node is the parent of its pair. -/
theorem IsTree.exists_pairParent_eq [PlainText K] (h : IsTree task nodes) {i j : ℕ}
    (hn : nodes[i]? = some n) (hparent : n.parent = some j) :
    ∃ k, 2 * k + 1 < nodes.length ∧ pairParent nodes k = j := by
  have hodd := h.odd
  have hlt : i < nodes.length := (List.getElem?_eq_some_iff.1 hn).1
  have hpos : 0 < i := by
    rcases Nat.eq_zero_or_pos i with rfl | hpos
    · obtain ⟨r, hr, hnone, -⟩ := h.root
      obtain rfl := Option.some.inj (hn.symm.trans hr)
      rw [hnone] at hparent
      cases hparent
    · exact hpos
  obtain ⟨low, high, hlow, hhigh, hlowParent, hhighParent, -⟩ :=
    h.exists_pair (k := (i - 1) / 2) (by omega)
  refine ⟨(i - 1) / 2, by omega, ?_⟩
  rcases Nat.mod_two_eq_zero_or_one i with heven | hone
  · rw [show 2 * ((i - 1) / 2) + 2 = i by omega] at hhigh
    obtain rfl := Option.some.inj (hn.symm.trans hhigh)
    exact Option.some.inj (hhighParent.symm.trans hparent)
  · rw [show 2 * ((i - 1) / 2) + 1 = i by omega] at hlow
    obtain rfl := Option.some.inj (hn.symm.trans hlow)
    exact Option.some.inj (hlowParent.symm.trans hparent)

/-- **A tree has its root and two nodes for each node with children.** -/
theorem IsTree.length_eq [PlainText K] (h : IsTree task nodes) :
    nodes.length = 1 + 2 * nodes.countP fun n => n.HasChildrenIn nodes := by
  have hodd := h.odd
  -- the nodes with children are the parents of the pairs, and distinct pairs have distinct parents
  have hnodup : ((List.range ((nodes.length - 1) / 2)).map (pairParent nodes)).Nodup := by
    refine List.nodup_range.map_on fun j hj k hk heq => ?_
    rw [List.mem_range] at hj hk
    obtain ⟨low, -, hlow, -, hparent, -⟩ := h.exists_pair (k := j) (by omega)
    obtain ⟨low', -, hlow', -, hparent', -⟩ := h.exists_pair (k := k) (by omega)
    exact h.distinct hlow hlow' (by rw [hparent, hparent', heq])
  have hcount := countP_eq_length (q := fun n => n.HasChildrenIn nodes) h.id_eq hnodup ?_
  · rw [hcount, List.length_map, List.length_range]
    omega
  · intro i
    simp only [List.mem_map, List.mem_range, decide_eq_true_eq]
    constructor
    · rintro ⟨k, hk, rfl⟩
      obtain ⟨low, -, hlow, -, hparent, -, p, hp⟩ := h.exists_pair (k := k) (by omega)
      exact ⟨p, hp, low, List.mem_of_getElem? hlow, (h.id_eq hp).symm ▸ hparent⟩
    · rintro ⟨n, hn, m, hm, hparent⟩
      rw [h.id_eq hn] at hparent
      obtain ⟨j, hj⟩ := List.mem_iff_getElem?.1 hm
      obtain ⟨k, hk, heq⟩ := h.exists_pairParent_eq hj hparent
      exact ⟨k, by omega, heq⟩

/-- As many nodes are open as are in the frontier. -/
theorem countP_isOpenIn (hwell : WellFormed task s) (hopen : BranchesOpen s none) :
    (s.tree.nodes.countP fun n => n.IsOpenIn s.tree.nodes) = s.frontier.size := by
  have hid : ∀ {i : ℕ} {n : Node K}, s.tree.nodes[i]? = some n → n.id = i := hwell.id_eq
  rw [countP_eq_length hid hwell.nodup, List.length_map]
  · rfl
  · intro i
    simp only [List.mem_map, decide_eq_true_eq]
    constructor
    · rintro ⟨e, he, rfl⟩
      obtain ⟨⟨n, hn, hkind⟩, hleaf⟩ := hwell.opened e he
      exact ⟨n, hn, hkind, (hwell.id_eq hn).symm ▸ hleaf⟩
    · rintro ⟨n, hn, hkind, hleaf⟩
      exact hopen i n hn hkind (hid hn ▸ hleaf) (by simp)

/-! ## The whole search -/

/-- Where a search ends its counts are those of its nodes and events. -/
theorem run_tallied [PlainText K] (hconsistent : task.backend.IsConsistent) {limit : Option Limit}
    (h : (run task b).outcome = .ok (s, limit)) : Tallied (run task b).events s :=
  run_records (fun hsolve hplants => .root hconsistent hsolve hplants)
    (fun hwell htallied hpop hvisit => htallied.visit hconsistent hwell hpop hvisit) h

/-- A search explores no more nodes than it may. -/
theorem Proceeds.explored_le [PlainText K] {m : ℕ} {limit : Option Limit}
    (h : Proceeds task m s s' limit) : s'.explored ≤ s.explored + m := by
  induction h with
  | exhausted _ => exact Nat.le_add_right _ _
  | spent _ => exact Nat.le_add_right _ _
  | late _ _ => exact Nat.le_add_right _ _
  | next _ _ hvisit _ ih =>
      have := explored_of_visit hvisit
      omega

/-- Where a search ends it has explored no more nodes than it may. -/
theorem run_explored_le [PlainText K] {limit : Option Limit}
    (h : (run task b).outcome = .ok (s, limit)) : s.explored ≤ task.settings.maxNodes := by
  cases run_eq_ok_iff.1 h with
  | settled hstart =>
      obtain ⟨n, hrooted⟩ := start_cases hstart
      exact hrooted.explored_eq ▸ Nat.zero_le _
  | grown hstart hproceeds =>
      obtain ⟨n, hrooted⟩ := start_cases hstart
      have hle := hproceeds.explored_le
      rwa [hrooted.explored_eq, Nat.zero_add] at hle

/-- The counts of a search agree with the tree that it returns, with what it reports and with each
other. -/
structure Conserved [PlainText K] (task : Task K σ) (b : σ) (solution : Solution K) : Prop where
  pruned_eq : solution.pruned = solution.tree.countP fun n => n.kind = .pruned
  stalled_eq : solution.stalled =
    solution.tree.countP fun n => n.status = .pivotLimit ∨ n.status = .unbounded
  /-- The tree has its root and two nodes for each node with children. -/
  size_eq : solution.tree.length =
    1 + 2 * solution.tree.countP fun n => n.HasChildrenIn solution.tree
  /-- Each node that was explored got children or was closed. -/
  explored_eq : solution.explored =
    (solution.tree.countP fun n => n.HasChildrenIn solution.tree) +
      (closings (solve task b).events).length
  /-- Nodes are closed once, and the tree shows them as pruned. -/
  closed : (closings (solve task b).events).Nodup ∧ ∀ i ∈ closings (solve task b).events,
    ∃ n, solution.tree[i]? = some n ∧ n.kind = .pruned
  explored_le : solution.explored ≤ task.settings.maxNodes
  /-- Each node that was explored was taken from the frontier, and what was added to it and not
  taken is open. -/
  frontier : ∃ s limit, (run task b).outcome = .ok (s, limit) ∧
    solution = finish task s limit ∧ s.frontier.popped = solution.explored ∧
      s.frontier.added =
        s.frontier.popped + solution.tree.countP fun n => n.IsOpenIn solution.tree

/-- **Counts are conserved.**  If the backend answers consistently, then the counts of every search
that ends are those of its tree and of the nodes it reports to have closed. -/
theorem counts_conserved [PlainText K] (hconsistent : task.backend.IsConsistent)
    {solution : Solution K} (h : (solve task b).outcome = .ok solution) :
    Conserved task b solution := by
  obtain ⟨s, limit, hrun, rfl⟩ := solve_eq_ok_iff.1 h
  have htallied := run_tallied hconsistent hrun
  have hclosings : closings (solve task b).events = closings (run task b).events := by
    rw [solve, closings_bind]
    exact fun _ => rfl
  have hlength := (run_isTree hrun).length_eq
  have hsize := htallied.size_eq
  rw [Tree.size, hlength] at hsize
  obtain ⟨hwell, -, -⟩ := run_keeps (motive := fun _ => True) (fun _ _ => trivial)
    (fun _ _ _ _ => trivial) hrun
  refine ⟨htallied.pruned_eq, htallied.stalled_eq, hlength, ?_, ?_, run_explored_le hrun,
    s, limit, hrun, rfl, htallied.popped_eq, ?_⟩
  · rw [hclosings]
    show s.explored = (s.tree.nodes.countP fun n => n.HasChildrenIn s.tree.nodes) + _
    omega
  · rw [hclosings]
    exact ⟨htallied.nodup, htallied.closed⟩
  · show _ = _ + s.tree.nodes.countP fun n => n.IsOpenIn s.tree.nodes
    rw [countP_isOpenIn hwell (run_branchesOpen hrun), htallied.added_eq]

/-- In this search two nodes are explored: the root, which is split, and its first child, which is
closed. -/
theorem boundReached_counts_conserved : ∃ solution,
    (solve (boundReached.task halvesSettings fun _ => 0) 0).outcome = .ok solution ∧
      Conserved (boundReached.task halvesSettings fun _ => 0) 0 solution ∧
      solution.explored = 2 ∧ solution.pruned = 1 ∧ solution.tree.length = 3 ∧
      closings (solve (boundReached.task halvesSettings fun _ => 0) 0).events = [1] := by
  have heval : (solve (boundReached.task halvesSettings fun _ => 0) 0).outcome.map
      (fun solution => (solution.explored, solution.pruned, solution.tree.length)) =
        .ok (2, 1, 3) := by
    decide +kernel
  have hclosings :
      closings (solve (boundReached.task halvesSettings fun _ => 0) 0).events = [1] := by
    decide +kernel
  obtain ⟨solution, hout, heq⟩ := exists_of_map_eq_ok heval
  simp only [Prod.mk.injEq] at heq
  exact ⟨solution, hout, counts_conserved (simplexBackend_isConsistent _ _) hout, heq.1, heq.2.1,
    heq.2.2, hclosings⟩

end Search

end BranchBound
