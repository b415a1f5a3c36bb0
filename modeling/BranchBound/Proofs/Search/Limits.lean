import BranchBound.Proofs.Search.Stalls
import BranchBound.Proofs.Search.TreeShape

/-!
# What the limit says about the tree

The limit of a search and its verdict can be read off the tree it returns (`limit_iff`).  Branches
without children are what the search left undone: at every moment they are exactly the open nodes
(`BranchesOpen`, `exists_isOpenIn_iff`).  Subtrees that were given up may hide a better point if the
best value of their parents is better than the incumbent, and this best value is the stalled bound
(`stallIsOpen_iff`).  The search stops for its budget or for the time if there is something of the
first kind, and a stalled relaxation is its limit if there is only something of the second.
-/

namespace BranchBound

variable {K : Type} [Scalar K] {σ : Type}

namespace Search

open Relaxation

/-! ## Open nodes -/

/-- Every branch without children is open, except perhaps the one with number `skip`. -/
def BranchesOpen (s : State K σ) (skip : Option ℕ) : Prop :=
  ∀ i n, s.tree.node? i = some n → n.kind = .branch → s.tree.IsLeaf i → skip ≠ some i →
    ∃ e ∈ s.frontier.entries, e.id = i

variable {task : Task K σ} {s s' : State K σ} {p n : Node K}

/-- A node that joins the tree is open if it is a branch. -/
theorem Adds.branchesOpen (hadds : Adds s s' n) {skip : Option ℕ} (h : BranchesOpen s skip) :
    BranchesOpen s' skip := by
  have hentries : (∀ e ∈ s.frontier.entries, e ∈ s'.frontier.entries) ∧
      (n.kind = .branch → ∃ e ∈ s'.frontier.entries, e.id = n.id) := by
    obtain ⟨v, hv⟩ := hadds.frontier_eq
    rw [hv]
    split
    · exact ⟨fun e he => List.mem_cons_of_mem _ he, fun _ => ⟨_, List.mem_cons_self, rfl⟩⟩
    · rename_i hkind
      exact ⟨fun e he => he, fun hbranch => absurd hbranch hkind⟩
  intro i m hm hkind hleaf hskip
  rw [hadds.tree_eq] at hm hleaf
  obtain hm | ⟨rfl, rfl⟩ := (Tree.node?_push_eq_some_iff hadds.id_eq).1 hm
  · obtain ⟨e, he, hid⟩ := h i m hm hkind (Tree.isLeaf_push_iff.1 hleaf).1 hskip
    exact ⟨e, hentries.1 e he, hid⟩
  · obtain ⟨e, he, hid⟩ := hentries.2 hkind
    exact ⟨e, he, hid.trans hadds.id_eq⟩

/-- **A visit leaves no branch without children that is not open.** -/
theorem Visits.branchesOpen [PlainText K] {e : Entry K} {rest : Frontier K}
    (h : Visits task s e rest n s') (hwell : WellFormed task s) (hopen : BranchesOpen s none) :
    BranchesOpen s' none := by
  have hpopped : BranchesOpen { s with frontier := rest, explored := s.explored + 1 }
      (some e.id) := by
    intro i m hm hkind hleaf hskip
    obtain ⟨d, hd, hid⟩ := hopen i m hm hkind hleaf (by simp)
    rcases List.mem_cons.1 (h.entries.mem_iff.1 hd) with rfl | hd
    · exact absurd (congrArg some hid) hskip
    · exact ⟨d, hd, hid⟩
  have hprocesses := h.processes.explored
  cases hprocesses with
  | closed =>
      intro i m hm hkind hleaf _
      obtain ⟨m', hm', rfl⟩ := exists_of_node?_close hm
      have hne : i ≠ e.id := by
        rintro rfl
        simp at hkind
      exact hpopped i m' hm' (by simpa [hne] using hkind) (isLeaf_close.1 hleaf)
        (by simpa using hne.symm)
  | kept hsplit => exact absurd hsplit (hwell.fractional h.node h.kind_eq).splits
  | split _ childLow addsLow childHigh addsHigh =>
      intro i m hm hkind hleaf _
      refine addsHigh.branchesOpen (addsLow.branchesOpen hpopped) i m hm hkind hleaf ?_
      -- the node that was split has children
      rintro heq
      obtain rfl := Option.some.inj heq
      rw [addsHigh.tree_eq, Tree.isLeaf_push_iff, childHigh.parent_eq, hwell.id_eq h.node] at hleaf
      exact hleaf.2 rfl

/-- The root is open if it is a branch. -/
theorem Plants.branchesOpen {b c : σ} {a : Answer K} {st : Start}
    (hsolve : (task.backend.solve b []).outcome = .ok (a, c)) (h : Plants task c a s st) :
    BranchesOpen s none := by
  obtain ⟨n, hrooted⟩ := h.rooted hsolve
  intro i m hm hkind _ _
  obtain ⟨rfl, rfl⟩ := hrooted.node?_eq_some_iff.1 hm
  cases st with
  | settled => exact absurd hkind (hrooted.settled rfl).2
  | growing =>
      obtain ⟨-, v, hentries⟩ := hrooted.growing rfl
      exact ⟨_, by rw [hentries]; exact List.mem_singleton.2 rfl, rfl⟩

/-- **Where a search ends every branch without children is open.** -/
theorem run_branchesOpen [PlainText K] {b : σ} {limit : Option Limit}
    (h : (run task b).outcome = .ok (s, limit)) : BranchesOpen s none :=
  (run_keeps (fun hsolve hplants => Plants.branchesOpen hsolve hplants)
    (fun hwell hopen hvisits _ => hvisits.branchesOpen hwell hopen) h).2.1

/-! ## The limit -/

omit [Scalar K] in
/-- The node waits to be split: it is a branch without children. -/
def Node.IsOpenIn (nodes : List (Node K)) (n : Node K) : Prop :=
  n.kind = .branch ∧ ∀ m ∈ nodes, m.parent ≠ some n.id

/-- The relaxation of the node was given up, and the value of its parent is better than `best`, if
there is one. -/
def Node.MayHide (sense : Sense) (nodes : List (Node K)) (best : Option K) (n : Node K) : Prop :=
  n.GaveUp ∧ ∃ p ∈ nodes, n.parent = some p.id ∧
    ∀ v, best = some v → ∃ w, p.value = some w ∧ sense.improves w v = true

/-- The limit and the verdict are those that the tree calls for. -/
structure MatchesTree (task : Task K σ) (solution : Solution K) : Prop where
  /-- Budget or time stopped the search exactly if a branch has no children. -/
  stopped : (solution.limit = some .nodes ∨ solution.limit = some .time) ↔
    ∃ n ∈ solution.tree, n.IsOpenIn solution.tree
  /-- A stalled relaxation is the limit exactly if nothing else is left and it may hide a better
  point. -/
  hidden : solution.limit = some .pivots ↔
    (¬ ∃ n ∈ solution.tree, n.IsOpenIn solution.tree) ∧
      ∃ n ∈ solution.tree, n.MayHide task.sense solution.tree solution.value
  /-- Otherwise there is no limit. -/
  complete : solution.limit = none ↔
    (¬ ∃ n ∈ solution.tree, n.IsOpenIn solution.tree) ∧
      ¬ ∃ n ∈ solution.tree, n.MayHide task.sense solution.tree solution.value
  /-- The budget is used up when it stops the search. -/
  budget : solution.limit = some .nodes → solution.explored = task.settings.maxNodes
  optimal : solution.status = .optimal ↔ solution.limit = none ∧ solution.x ≠ none
  infeasible : solution.status = .infeasible ↔ solution.limit = none ∧ solution.x = none
  feasibleNotProven :
    solution.status = .feasibleNotProven ↔ solution.limit ≠ none ∧ solution.x ≠ none
  nothingFound : solution.status = .nothingFound ↔ solution.limit ≠ none ∧ solution.x = none

/-- A branch has no children exactly if some node is open. -/
theorem exists_isOpenIn_iff (hwell : WellFormed task s) (hopen : BranchesOpen s none) :
    (∃ n ∈ s.tree.nodes, n.IsOpenIn s.tree.nodes) ↔ s.frontier.entries ≠ [] := by
  constructor
  · rintro ⟨n, hn, hkind, hleaf⟩
    obtain ⟨i, hi⟩ := Tree.mem_nodes_iff.1 hn
    rw [hwell.id_eq hi] at hleaf
    obtain ⟨e, he, -⟩ := hopen i n hi hkind hleaf (by simp)
    exact List.ne_nil_of_mem he
  · intro hne
    obtain ⟨e, he⟩ := List.exists_mem_of_ne_nil _ hne
    obtain ⟨⟨n, hn, hkind⟩, hleaf⟩ := hwell.opened e he
    exact ⟨n, Tree.mem_nodes_iff.2 ⟨e.id, hn⟩, hkind, (hwell.id_eq hn).symm ▸ hleaf⟩

/-- The stalled bound can improve on the incumbent exactly if a subtree that was given up may hide a
better point. -/
theorem stallIsOpen_iff [PlainText K] (hordered : Scalar.OrderedOn task.backend.values)
    (htree : IsTree task s.tree.nodes) (haligned : Aligned task s) (h : Traced task s) :
    s.stallIsOpen = true ↔
      ∃ n ∈ s.tree.nodes, n.MayHide task.sense s.tree.nodes s.incumbent.value? := by
  have himprove : ∀ b, s.incumbent.canImprove b = true ↔
      ∀ v, s.incumbent.value? = some v → task.sense.improves b v = true := by
    intro b
    unfold Incumbent.canImprove Incumbent.value?
    rw [← haligned.incumbent_sense]
    cases s.incumbent.best <;> simp
  have hstall : s.stallIsOpen = true ↔
      ∃ b, s.stalledBound = some b ∧ s.incumbent.canImprove b = true := by
    unfold State.stallIsOpen
    cases s.stalledBound <;> simp
  rw [hstall]
  constructor
  · rintro ⟨b, hb, hb'⟩
    obtain ⟨n, hn, hgave, p, hp, hparent, hvalue⟩ := h.attained b hb
    exact ⟨n, hn, hgave, p, hp, hparent, fun v hv => ⟨b, hvalue, (himprove b).1 hb' v hv⟩⟩
  · rintro ⟨n, hn, hgave, p, hp, hparent, hbetter⟩
    -- the parent was split, so it has a value
    obtain ⟨i, hi⟩ := List.mem_iff_getElem?.1 hn
    obtain ⟨j, hj⟩ := List.mem_iff_getElem?.1 hp
    obtain ⟨q, hq, hkind, -⟩ := htree.branch_of_parent hi hparent
    rw [htree.id_eq hj] at hq
    obtain rfl := Option.some.inj (hj.symm.trans hq)
    obtain ⟨w, hw⟩ := Option.ne_none_iff_exists'.1 (h.valued p hp hkind)
    have hbelow : StalledBelow s.tree.nodes w := ⟨n, hn, hgave, p, hp, hparent, hw⟩
    obtain ⟨b, hb, hwb⟩ := h.best w hbelow
    refine ⟨b, hb, (himprove b).2 fun v hv => ?_⟩
    obtain ⟨w', hw', hwv⟩ := hbetter v hv
    obtain rfl := Option.some.inj (hw.symm.trans hw')
    have hbmem : b ∈ task.backend.values := by
      obtain ⟨_, -, -, q, hq, -, hqv⟩ := h.attained b hb
      exact h.value_mem q hq b hqv
    rcases hordered.improves_cotrans task.sense (h.value_mem p hp w hw) (h.incumbent_mem v hv)
      hbmem hwv with hwb' | hbv
    · rw [hwb] at hwb'
      cases hwb'
    · exact hbv

omit [Scalar K] in
/-- The verdict follows from the limit and the incumbent. -/
theorem status_ofLimit_iff (limit : Option Limit) (x : Option (List K)) :
    (Status.ofLimit limit x.isSome = .optimal ↔ limit = none ∧ x ≠ none) ∧
      (Status.ofLimit limit x.isSome = .infeasible ↔ limit = none ∧ x = none) ∧
      (Status.ofLimit limit x.isSome = .feasibleNotProven ↔ limit ≠ none ∧ x ≠ none) ∧
      (Status.ofLimit limit x.isSome = .nothingFound ↔ limit ≠ none ∧ x = none) := by
  cases limit <;> cases x <;> simp [Status.ofLimit]

/-- **The limit and the verdict are those that the tree calls for**, for every backend whose answers
are consistent and come from a linear order, and whatever the settings and the clock. -/
theorem limit_iff [PlainText K] (task : Task K σ) (b : σ)
    (hconsistent : task.backend.IsConsistent) (hordered : Scalar.OrderedOn task.backend.values)
    {solution : Solution K} (h : (solve task b).outcome = .ok solution) :
    MatchesTree task solution := by
  obtain ⟨s, limit, hrun, rfl⟩ := solve_eq_ok_iff.1 h
  obtain ⟨hwell, htraced, hhalts⟩ := run_keeps
    (fun hsolve hplants => Traced.root hconsistent hsolve hplants)
    (fun hwell htraced hvisits _ => htraced.visit hconsistent hordered hwell hvisits) hrun
  have htree := run_isTree hrun
  have hopen := run_branchesOpen hrun
  have hleft := exists_isOpenIn_iff hwell hopen
  have hstall := stallIsOpen_iff hordered htree (run_aligned hrun) htraced
  obtain ⟨hoptimal, hinfeasible, hfeasible, hnothing⟩ :=
    status_ofLimit_iff (finalLimit s limit) s.incumbent.point?
  have hsome : s.incumbent.point?.isSome = s.incumbent.hasSolution := by
    rw [Incumbent.point?, Incumbent.hasSolution, Option.isSome_map]
  rw [hsome] at hoptimal hinfeasible hfeasible hnothing
  have hlimit : ((finalLimit s limit = some .nodes ∨ finalLimit s limit = some .time) ↔
        s.frontier.entries ≠ []) ∧
      (finalLimit s limit = some .pivots ↔ ¬ s.frontier.entries ≠ [] ∧ s.stallIsOpen = true) ∧
      (finalLimit s limit = none ↔ ¬ s.frontier.entries ≠ [] ∧ ¬ s.stallIsOpen = true) ∧
      (finalLimit s limit = some .nodes → s.explored = task.settings.maxNodes) := by
    cases hhalts with
    | exhausted hnone => cases hopens : s.stallIsOpen <;> simp [finalLimit, hnone, hopens]
    | budget hne hbudget => simp [finalLimit, hne, hbudget]
    | late hne _ => simp [finalLimit, hne]
  rw [← hleft, hstall] at hlimit
  exact ⟨hlimit.1, hlimit.2.1, hlimit.2.2.1, hlimit.2.2.2, hoptimal, hinfeasible, hfeasible,
    hnothing⟩

/-- The task of solving `halves` with at most one pivot for a relaxation. -/
def halvesOnePivot : Task ℚ ℕ :=
  halves.task (.exact .mostFractional 100 (.exact .dantzig 1)) fun _ => 0

/-- With one pivot the relaxation of a child of the root is given up, and the search ends with that
limit. -/
theorem halves_limit_iff :
    halvesOnePivot.backend.IsConsistent ∧ Scalar.OrderedOn halvesOnePivot.backend.values ∧
      ∃ solution, (solve halvesOnePivot 0).outcome = .ok solution ∧
        solution.limit = some .pivots ∧ MatchesTree halvesOnePivot solution := by
  have hconsistent : halvesOnePivot.backend.IsConsistent :=
    simplexBackend_isConsistent (.exact .dantzig 1) halves.relaxation
  have hordered : Scalar.OrderedOn halvesOnePivot.backend.values := ExactScalar.orderedOn _
  have heval : (solve halvesOnePivot 0).outcome.map Solution.limit = .ok (some .pivots) := by
    decide +kernel
  obtain ⟨solution, hout, hlimit⟩ := exists_of_map_eq_ok heval
  exact ⟨hconsistent, hordered, solution, hout, hlimit,
    limit_iff halvesOnePivot 0 hconsistent hordered hout⟩

end Search

end BranchBound
