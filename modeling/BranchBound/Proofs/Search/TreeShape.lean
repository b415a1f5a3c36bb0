import BranchBound.Proofs.Search.Validity

/-!
# The shape of the tree

Whatever the backend answers, the nodes that a search returns form a tree that can be read off their
fields (`IsTree`): a node is found under its number, the root comes first, and after it the nodes
come in pairs, each of them the two halves of a split of one earlier branch (`Halves`), and no two
pairs of the same.  The root alone is such a tree, closing a node without children leaves one
(`IsTree.close`), and so does splitting a branch without children (`IsTree.split`); since a visit
does nothing else, the search returns one (`tree_shape`).
-/

namespace BranchBound

variable {K : Type} [Scalar K] [PlainText K] {σ : Type}

namespace Search

/-! ## Children and pairs -/

omit [Scalar K] in
/-- The node is a child of `p` with `b` as its own bound. -/
structure IsChild (p : Node K) (b : Bound K) (n : Node K) : Prop where
  parent_eq : n.parent = some p.id
  depth_eq : n.depth = p.depth + 1
  bounds_eq : n.bounds = p.bounds ++ [b]
  branchVar_eq : n.branchVar = some b.var
  branchText_eq : n.branchText = some b.describe

/-- The two nodes are the children that the split of `p` gives: at the variable that the rule
selects for the point of `p`, one at or below the floor of its value and one at or above the
ceiling. -/
structure Halves (task : Task K σ) (p low high : Node K) : Prop where
  split : ∃ var value,
    Branching.select task.settings.branching task.objective task.settings.integralityTol p.x =
        some var ∧
      p.x[var]? = some value ∧
      IsChild p ⟨var, .upper, Scalar.floor value⟩ low ∧
      IsChild p ⟨var, .lower, Scalar.ceil value⟩ high

/-- The nodes form a tree: the root, and then pairs of children of branches. -/
structure IsTree (task : Task K σ) (nodes : List (Node K)) : Prop where
  /-- A node is found under its number. -/
  id_eq : ∀ {i : ℕ} {n : Node K}, nodes[i]? = some n → n.id = i
  /-- The first node is the root. -/
  root : ∃ n, nodes[0]? = some n ∧ n.parent = none ∧ n.depth = 0 ∧ n.bounds = []
  /-- The other nodes come in pairs. -/
  odd : nodes.length % 2 = 1
  /-- The nodes of a pair are the two children of an earlier branch. -/
  pair : ∀ k, 2 * k + 1 < nodes.length → ∃ p low high,
    nodes[2 * k + 1]? = some low ∧ nodes[2 * k + 2]? = some high ∧
      p.id < 2 * k + 1 ∧ nodes[p.id]? = some p ∧ p.kind = .branch ∧ Halves task p low high
  /-- Distinct pairs have distinct parents. -/
  distinct : ∀ {j k : ℕ} {n m : Node K}, nodes[2 * j + 1]? = some n → nodes[2 * k + 1]? = some m →
    n.parent = m.parent → j = k

variable {task : Task K σ} {s s' : State K σ} {p low high : Node K} {nodes : List (Node K)} {id : ℕ}

omit [PlainText K] in
/-- What a split is made of. -/
theorem exists_of_split?_eq_some {x : List K} {d : Decision K} (h : task.split? x = some d) :
    ∃ var value,
      Branching.select task.settings.branching task.objective task.settings.integralityTol x =
          some var ∧
        x[var]? = some value ∧ d.down = ⟨var, .upper, Scalar.floor value⟩ ∧
          d.up = ⟨var, .lower, Scalar.ceil value⟩ := by
  simp only [Task.split?, Branching.split?, Option.bind_eq_bind, Option.bind_eq_some_iff] at h
  obtain ⟨var, hvar, value, hvalue, hd⟩ := h
  obtain rfl := Option.some.inj hd
  exact ⟨var, value, hvar, hvalue, rfl, rfl⟩

/-- A child that joins the tree is a child, and it comes last. -/
theorem Joins.isChild {v : K} {b : Bound K} {a : Relaxation.Answer K} {s₁ : State K σ} {n : Node K}
    (h : Joins task p v b s s' n a s₁) :
    IsChild p b n ∧ n.id = s.tree.nodes.length ∧ s'.tree.nodes = s.tree.nodes ++ [n] := by
  have hn := h.node_eq
  have hid : n.id = s.tree.nextId := by rw [hn]; rfl
  refine ⟨⟨by rw [hn]; rfl, by rw [hn]; rfl, by rw [hn]; rfl, by rw [hn]; rfl, by rw [hn]; rfl⟩,
    hid, ?_⟩
  rw [h.adds.2.tree_eq, Tree.push, ← hid]

/-- The children of a split are the two halves. -/
theorem halves_of_isChild {d : Decision K} (hsplit : task.split? p.x = some d)
    (hlow : IsChild p d.down low) (hhigh : IsChild p d.up high) : Halves task p low high := by
  obtain ⟨var, value, hvar, hvalue, hdown, hup⟩ := exists_of_split?_eq_some hsplit
  exact ⟨var, value, hvar, hvalue, hdown ▸ hlow, hup ▸ hhigh⟩

/-- Both halves of a split name its node as their parent. -/
theorem Halves.parent_eq (h : Halves task p low high) :
    low.parent = some p.id ∧ high.parent = some p.id := by
  obtain ⟨_, _, _, _, hlow, hhigh⟩ := h.split
  exact ⟨hlow.parent_eq, hhigh.parent_eq⟩

namespace IsTree

/-! ## The root -/

/-- The root alone is a tree. -/
theorem singleton {n : Node K} (hid : n.id = 0) (hparent : n.parent = none) (hdepth : n.depth = 0)
    (hbounds : n.bounds = []) : IsTree task [n] where
  id_eq {i m} hm := by
    cases i with
    | zero =>
        obtain rfl : n = m := by simpa using hm
        exact hid
    | succ i => simp at hm
  root := ⟨n, rfl, hparent, hdepth, hbounds⟩
  odd := rfl
  pair k hk := absurd hk (by simp)
  distinct hn := by simp at hn

/-- Every node after the first is one of a pair, and its parent is an earlier branch. -/
theorem exists_parent (h : IsTree task nodes) {i : ℕ} {n : Node K} (hn : nodes[i]? = some n)
    (hpos : 0 < i) :
    ∃ q : Node K, nodes[q.id]? = some q ∧ q.kind = .branch ∧ q.id < i ∧
      n.parent = some q.id := by
  have hi : i < nodes.length := (List.getElem?_eq_some_iff.1 hn).1
  have hodd := h.odd
  obtain ⟨q, low, high, hlow, hhigh, hlt, hq, hkind, hhalves⟩ := h.pair ((i - 1) / 2) (by omega)
  refine ⟨q, hq, hkind, by omega, ?_⟩
  rcases Nat.mod_two_eq_zero_or_one i with heven | hone
  · rw [show 2 * ((i - 1) / 2) + 2 = i by omega] at hhigh
    obtain rfl := Option.some.inj (hn.symm.trans hhigh)
    exact hhalves.parent_eq.2
  · rw [show 2 * ((i - 1) / 2) + 1 = i by omega] at hlow
    obtain rfl := Option.some.inj (hn.symm.trans hlow)
    exact hhalves.parent_eq.1

/-- A node with a parent has an earlier branch as its parent. -/
theorem branch_of_parent (h : IsTree task nodes) {i j : ℕ} {n : Node K} (hn : nodes[i]? = some n)
    (hparent : n.parent = some j) : ∃ q, nodes[j]? = some q ∧ q.kind = .branch ∧ j < i := by
  rcases Nat.eq_zero_or_pos i with rfl | hpos
  · obtain ⟨r, hr, hnone, -⟩ := h.root
    obtain rfl := Option.some.inj (hn.symm.trans hr)
    rw [hnone] at hparent
    cases hparent
  · obtain ⟨q, hq, hkind, hlt, hqid⟩ := h.exists_parent hn hpos
    obtain rfl : q.id = j := Option.some.inj (hqid.symm.trans hparent)
    exact ⟨q, hq, hkind, hlt⟩

/-! ## Closing a node -/

/-- **Closing a node without children leaves a tree.** -/
theorem close (h : IsTree task s.tree.nodes) (hleaf : s.tree.IsLeaf id) :
    IsTree task (close s id).tree.nodes := by
  have hnew : ∀ {i : ℕ} {n : Node K}, s.tree.nodes[i]? = some n →
      (Search.close s id).tree.nodes[i]? =
        some { n with kind := if i = id then .pruned else n.kind } :=
    fun hn => node?_close_of_eq hn id
  have hold : ∀ {i : ℕ} {m : Node K}, (Search.close s id).tree.nodes[i]? = some m →
      ∃ n, s.tree.nodes[i]? = some n ∧
        m = { n with kind := if i = id then .pruned else n.kind } :=
    fun hm => exists_of_node?_close hm
  have hlength : (Search.close s id).tree.nodes.length = s.tree.nodes.length :=
    Tree.size_modify s.tree id _
  refine ⟨?_, ?_, hlength ▸ h.odd, ?_, ?_⟩
  · intro i m hm
    obtain ⟨n, hn, rfl⟩ := hold hm
    have hid := h.id_eq hn
    exact hid
  · obtain ⟨n, hn, hparent, hdepth, hbounds⟩ := h.root
    exact ⟨_, hnew hn, hparent, hdepth, hbounds⟩
  · intro k hk
    obtain ⟨p, low, high, hlow, hhigh, hlt, hp, hkind, hhalves⟩ := h.pair k (hlength ▸ hk)
    -- the closed node has no children, so it is not the parent
    have hne : p.id ≠ id := by
      rintro rfl
      exact hleaf low (List.mem_of_getElem? hlow) hhalves.parent_eq.1
    obtain ⟨var, value, hvar, hvalue, hchildLow, hchildHigh⟩ := hhalves.split
    have hp' := hnew hp
    rw [if_neg hne] at hp'
    refine ⟨p, _, _, hnew hlow, hnew hhigh, hlt, hp', hkind, var, value, hvar, hvalue,
      ⟨hchildLow.parent_eq, hchildLow.depth_eq, hchildLow.bounds_eq, hchildLow.branchVar_eq,
        hchildLow.branchText_eq⟩,
      ⟨hchildHigh.parent_eq, hchildHigh.depth_eq, hchildHigh.bounds_eq, hchildHigh.branchVar_eq,
        hchildHigh.branchText_eq⟩⟩
  · intro j k n m hn hm hparent
    obtain ⟨n', hn', rfl⟩ := hold hn
    obtain ⟨m', hm', rfl⟩ := hold hm
    exact h.distinct hn' hm' hparent

/-! ## Splitting a node -/

/-- **Appending the two halves of a branch without children leaves a tree.** -/
theorem split (h : IsTree task nodes) (hp : nodes[p.id]? = some p) (hkind : p.kind = .branch)
    (hleaf : ∀ n ∈ nodes, n.parent ≠ some p.id) (hhalves : Halves task p low high)
    (hlow : low.id = nodes.length) (hhigh : high.id = nodes.length + 1) :
    IsTree task (nodes ++ [low, high]) := by
  have hodd := h.odd
  have hlt : p.id < nodes.length := (List.getElem?_eq_some_iff.1 hp).1
  have hold : ∀ {i : ℕ}, i < nodes.length → (nodes ++ [low, high])[i]? = nodes[i]? :=
    fun hi => List.getElem?_append_left hi
  -- the numbers after the old ones belong to the two new nodes
  have hcases : ∀ {i : ℕ} {n : Node K}, (nodes ++ [low, high])[i]? = some n →
      nodes[i]? = some n ∧ i < nodes.length ∨ i = nodes.length ∧ n = low ∨
        i = nodes.length + 1 ∧ n = high := by
    intro i n hn
    rcases Nat.lt_or_ge i nodes.length with hi | hi
    · exact .inl ⟨hold hi ▸ hn, hi⟩
    · obtain ⟨k, rfl⟩ := Nat.exists_eq_add_of_le hi
      rw [List.getElem?_append_right hi, Nat.add_sub_cancel_left] at hn
      rcases k with _ | _ | k
      · exact .inr (.inl ⟨rfl, (Option.some.inj hn).symm⟩)
      · exact .inr (.inr ⟨rfl, (Option.some.inj hn).symm⟩)
      · simp at hn
  have hatLow : (nodes ++ [low, high])[nodes.length]? = some low := by simp
  have hatHigh : (nodes ++ [low, high])[nodes.length + 1]? = some high := by
    simp
  refine ⟨?_, ?_, ?_, ?_, ?_⟩
  · intro i n hn
    obtain ⟨hn, -⟩ | ⟨rfl, rfl⟩ | ⟨rfl, rfl⟩ := hcases hn
    · exact h.id_eq hn
    · exact hlow
    · exact hhigh
  · obtain ⟨r, hr, hroot⟩ := h.root
    exact ⟨r, by rw [hold (by omega), hr], hroot⟩
  · rw [List.length_append]
    show (nodes.length + 2) % 2 = 1
    omega
  · intro k hk
    rw [List.length_append] at hk
    have hk : 2 * k + 1 < nodes.length + 2 := hk
    rcases Nat.lt_or_ge (2 * k + 1) nodes.length with hi | hi
    · obtain ⟨q, l, u, hl, hu, hq, hnode, hbranch, hhalf⟩ := h.pair k hi
      have hu' : 2 * k + 2 < nodes.length := (List.getElem?_eq_some_iff.1 hu).1
      exact ⟨q, l, u, (hold hi).trans hl, (hold hu').trans hu, hq,
        (hold (by omega)).trans hnode, hbranch, hhalf⟩
    · have hlast : 2 * k + 1 = nodes.length := by omega
      refine ⟨p, low, high, hlast ▸ hatLow, ?_, by omega, (hold hlt).trans hp, hkind, hhalves⟩
      rw [show 2 * k + 2 = nodes.length + 1 by omega]
      exact hatHigh
  · intro j k n m hn hm hparent
    have hnew : ∀ {i : ℕ} {u : Node K}, nodes[i]? = some u → u.parent ≠ low.parent := by
      intro i u hu
      rw [hhalves.parent_eq.1]
      exact hleaf u (List.mem_of_getElem? hu)
    obtain ⟨hn', hj⟩ | ⟨hj, rfl⟩ | ⟨hj, rfl⟩ := hcases hn
    · obtain ⟨hm', hk⟩ | ⟨hk, rfl⟩ | ⟨hk, rfl⟩ := hcases hm
      · exact h.distinct hn' hm' hparent
      · exact absurd hparent (hnew hn')
      · omega
    · obtain ⟨hm', hk⟩ | ⟨hk, rfl⟩ | ⟨hk, rfl⟩ := hcases hm
      · exact absurd hparent.symm (hnew hm')
      · omega
      · omega
    · omega

end IsTree

/-! ## The search -/

/-- The root alone is a tree. -/
theorem Plants.isTree {b c : σ} {a : Relaxation.Answer K} {st : Start}
    (hsolve : (task.backend.solve b []).outcome = .ok (a, c)) (h : Plants task c a s st) :
    IsTree task s.tree.nodes := by
  obtain ⟨n, hrooted⟩ := h.rooted hsolve
  rw [hrooted.tree_eq]
  exact .singleton hrooted.id_eq hrooted.parent_eq hrooted.depth_eq hrooted.bounds_eq

/-- **A visit leaves a tree.** -/
theorem Visits.isTree {e : Entry K} {rest : Frontier K} {n : Node K} (h : Visits task s e rest n s')
    (htree : IsTree task s.tree.nodes) : IsTree task s'.tree.nodes := by
  have hid : n.id = e.id := htree.id_eq h.node
  cases h.processes with
  | closed _ => exact IsTree.close (s := { s with frontier := rest }) htree h.isLeaf
  | kept _ _ => exact htree
  | split _ hsplit joinsLow joinsHigh =>
      obtain ⟨hlow, hlowId, hnodes₁⟩ := joinsLow.isChild
      obtain ⟨hhigh, hhighId, hnodes₂⟩ := joinsHigh.isChild
      rw [hnodes₂, hnodes₁, List.append_assoc]
      refine htree.split (hid.symm ▸ h.node) h.kind_eq (hid.symm ▸ h.isLeaf)
        (halves_of_isChild hsplit hlow hhigh) hlowId ?_
      rw [hhighId, hnodes₁, List.length_append]
      rfl

/-- Where a search ends the nodes form a tree. -/
theorem run_isTree {b : σ} {limit : Option Limit} (h : (run task b).outcome = .ok (s, limit)) :
    IsTree task s.tree.nodes :=
  (run_keeps (fun hsolve hplants => Plants.isTree hsolve hplants)
    (fun _ htree hvisits _ => hvisits.isTree htree) h).2.1

/-- **Whatever the backend answers, a search returns a tree.**  The nodes after the root are pairs
of halves of branches, and a node of any other kind has no children. -/
theorem tree_shape (task : Task K σ) (b : σ) {solution : Solution K}
    (h : (solve task b).outcome = .ok solution) :
    IsTree task solution.tree ∧
      ∀ n ∈ solution.tree, n.kind ∈ [NodeKind.pruned, .infeasible, .integer, .optimal] →
        ∀ m ∈ solution.tree, m.parent ≠ some n.id := by
  obtain ⟨s, limit, hrun, rfl⟩ := solve_eq_ok_iff.1 h
  have htree := run_isTree hrun
  refine ⟨htree, fun n hn hkind m hm hparent => ?_⟩
  obtain ⟨i, hi⟩ := List.mem_iff_getElem?.1 hm
  obtain ⟨j, hj⟩ := List.mem_iff_getElem?.1 hn
  obtain ⟨q, hq, hbranch, -⟩ := htree.branch_of_parent hi hparent
  rw [htree.id_eq hj] at hq
  obtain rfl := Option.some.inj (hj.symm.trans hq)
  simp [hbranch] at hkind

/-- The search of `halves` returns the root with two pairs below it. -/
theorem halves_tree_shape :
    ∃ solution, (solve (halves.task halvesSettings fun _ => 0) 0).outcome = .ok solution ∧
      solution.tree.map (fun n => (n.parent, n.kind)) =
        [(none, .branch), (some 0, .branch), (some 0, .infeasible), (some 1, .integer),
          (some 1, .infeasible)] ∧
      IsTree (halves.task halvesSettings fun _ => 0) solution.tree ∧
      ∀ n ∈ solution.tree, n.kind ∈ [NodeKind.pruned, .infeasible, .integer, .optimal] →
        ∀ m ∈ solution.tree, m.parent ≠ some n.id := by
  have heval : (solve (halves.task halvesSettings fun _ => 0) 0).outcome.map
      (fun solution => solution.tree.map fun n => (n.parent, n.kind)) =
        .ok [(none, .branch), (some 0, .branch), (some 0, .infeasible), (some 1, .integer),
          (some 1, .infeasible)] := by
    decide +kernel
  obtain ⟨solution, hout, hkinds⟩ := exists_of_map_eq_ok heval
  obtain ⟨htree, hleaves⟩ := tree_shape _ 0 hout
  exact ⟨solution, hout, hkinds, htree, hleaves⟩

end Search

end BranchBound
