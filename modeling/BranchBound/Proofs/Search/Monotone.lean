import BranchBound.Proofs.Search.Dialogue
import BranchBound.Proofs.Search.Stalls

/-!
# Values along the branches of the tree

Every node is relaxed from scratch, with a first phase of its own.  What relates its answer to the
one of its parent is that both are true: the points within the bounds of a child are among those
within the bounds of its parent.  So with zero tolerances a node below another is never unbounded,
and its value is not better (`not_improves_of_within`).  In the trees that the search returns this
holds of every child, hence below every ancestor and below the root (`tree_monotone`).
-/

namespace BranchBound

variable {K : Type} [ExactScalar K]

namespace Relaxation

variable {settings : LinearProgram.Settings K} {p : LinearProgram K}
  {bounds tighter : List (Bound K)} {a b : Answer K}

/-- **Under tighter bounds than those of an optimum, no value is better and none is unbounded.** -/
theorem not_improves_of_within (hp : p.Shaped) (hs : settings.IsExact)
    (ha : (solveBounded settings p bounds).outcome = .ok a) (hverdict : a.verdict = .optimal)
    (hb : (solveBounded settings p tighter).outcome = .ok b)
    (hwithin : ∀ y, Within tighter y → Within bounds y) :
    b.verdict ≠ .unbounded ∧
      ∃ w, a.value = some w ∧ ∀ v, b.value = some v → p.sense.improves v w = false := by
  obtain ⟨q, s, hq, htrue, rfl⟩ := solveBounded_truthful hp hs ha
  obtain ⟨-, -, hvalue, hbest⟩ := (holds_ofSolution hq htrue).optimal hverdict
  obtain ⟨q', s', hq', htrue', rfl⟩ := solveBounded_truthful hp hs hb
  -- no point of the tighter program is better than the optimum
  have hbelow : ∀ y, q'.Feasible y →
      p.sense.improves (p.valueAt y) (p.valueAt (Answer.ofSolution s).x) = false := by
    intro y hy
    obtain ⟨hy, hy'⟩ := (hq'.feasible_iff y).1 hy
    exact hbest y hy (hwithin y hy')
  refine ⟨fun hunbounded => ?_, _, hvalue, fun v hv => ?_⟩
  · have hstatus : s'.status = .unbounded := ofStatus_injective hunbounded
    rw [LinearProgram.Truthful, hstatus] at htrue'
    obtain ⟨y, hy, hbetter⟩ := htrue' (p.valueAt (Answer.ofSolution s).x)
    rw [LinearProgram.valueAt, hq'.objective_eq, hq'.sense_eq] at hbetter
    exact absurd hbetter (Bool.eq_false_iff.1 (hbelow y hy))
  · have hoptimal : (Answer.ofSolution s').verdict = .optimal :=
      (Answer.isConsistent_ofSolution s').value_iff.1 (hv ▸ Option.some_ne_none v)
    obtain ⟨hfeas, hin, hvalue', -⟩ := (holds_ofSolution hq' htrue').optimal hoptimal
    obtain rfl := Option.some.inj (hvalue'.symm.trans hv)
    exact hbelow _ ((hq'.feasible_iff _).2 ⟨hfeas, hin⟩)

end Relaxation

namespace Search

open Relaxation

/-! ## The value of the root -/

section

variable {L : Type} [Scalar L] {σ : Type} {task : Task L σ} {s s' : State L σ} {n : Node L}

/-- The first node has the value that is kept for the gap. -/
def RootKept (s : State L σ) : Prop := ∃ r, s.tree.node? 0 = some r ∧ s.rootValue = r.value

/-- Classifying a child leaves the value that is kept as it is. -/
theorem Classifies.rootValue_eq {v : L} {a : Answer L} {kind : NodeKind}
    (h : Classifies task s v a kind s') : s'.rootValue = s.rootValue := by
  cases h <;> rfl

/-- Adding a child leaves the value of the root as it is. -/
theorem Joins.rootKept [PlainText L] {p : Node L} {v : L} {b : Bound L} {a : Answer L}
    {s₁ : State L σ} (h : Joins task p v b s s' n a s₁) (hroot : RootKept s) : RootKept s' := by
  obtain ⟨r, hr, hvalue⟩ := hroot
  obtain ⟨-, hadds⟩ := h.adds
  obtain ⟨⟨c, -, hclassify⟩, -, rfl⟩ := h
  refine ⟨r, ?_, hclassify.rootValue_eq.trans hvalue⟩
  rw [hadds.tree_eq]
  exact (Tree.node?_push_eq_some_iff hadds.id_eq).2 (.inl hr)

/-- A visit leaves the value of the root as it is. -/
theorem Visits.rootKept [PlainText L] {e : Entry L} {rest : Frontier L}
    (h : Visits task s e rest n s') (hroot : RootKept s) : RootKept s' := by
  have hpopped : RootKept { s with frontier := rest, explored := s.explored + 1 } := hroot
  cases h.processes with
  | closed _ =>
      obtain ⟨r, hr, hvalue⟩ := hpopped
      exact ⟨_, node?_close_of_eq hr e.id, hvalue⟩
  | kept _ _ => exact hpopped
  | split _ _ joinsLow joinsHigh => exact joinsHigh.rootKept (joinsLow.rootKept hpopped)

/-- **Where a search ends the kept value is the root's.** -/
theorem run_rootKept [PlainText L] {b : σ} {limit : Option Limit}
    (h : (run task b).outcome = .ok (s, limit)) : RootKept s := by
  refine (run_keeps (motive := RootKept) (fun _ hplants => ?_)
    (fun _ hroot hvisits _ => hvisits.rootKept hroot) h).2.1
  cases hplants <;> exact ⟨_, rfl, rfl⟩

end

/-! ## Parents and children -/

omit [ExactScalar K] in
/-- Both are nodes, and `m` is the parent of `n`. -/
structure IsParent (nodes : List (Node K)) (m n : Node K) : Prop where
  parent_mem : m ∈ nodes
  child_mem : n ∈ nodes
  parent_eq : n.parent = some m.id

variable {p : IntegerProgram K} {settings : Settings K} {clock : Clock}
  {s : State K ℕ} {m n : Node K}

omit [ExactScalar K] in
/-- A node with a parent number has the parent. -/
theorem WellFormed.isParent [Scalar K] {task : Task K ℕ} (hwell : WellFormed task s)
    (hn : n ∈ s.tree.nodes) {j : ℕ} (hparent : n.parent = some j) :
    ∃ m, IsParent s.tree.nodes m n := by
  obtain ⟨i, hi⟩ := Tree.mem_nodes_iff.1 hn
  obtain ⟨m, hm, -⟩ := hwell.parent hi hparent
  exact ⟨m, Tree.mem_nodes_iff.2 ⟨j, hm⟩, hn, by rw [hparent, hwell.id_eq hm]⟩

/-- **A child is not unbounded, and its value is not better than its parent's.** -/
theorem IsParent.not_improves (hp : p.relaxation.Shaped) (hs : settings.linear.IsExact)
    {events : List (Event K)} (hwell : WellFormed (p.task settings clock) s)
    (hfaithful : Faithful (p.task settings clock) 0 events s) (h : IsParent s.tree.nodes m n) :
    n.status ≠ .unbounded ∧
      ∃ w, m.value = some w ∧ ∀ v, n.value = some v → p.sense.improves v w = false := by
  obtain ⟨hm, hn, hparent⟩ := h
  obtain ⟨i, hi⟩ := Tree.mem_nodes_iff.1 hn
  obtain ⟨j, hj⟩ := Tree.mem_nodes_iff.1 hm
  obtain ⟨q, hq, hfrac, d, bound, -, -, hbounds⟩ := hwell.parent hi hparent
  rw [hwell.id_eq hj] at hq
  obtain rfl := Option.some.inj (hj.symm.trans hq)
  -- the answer that made the parent a branch is the one that it records
  obtain ⟨b, a, b', hsolve, hverdict, -⟩ := hfrac.answered
  obtain ⟨c, a', c', hsolve', hrecord⟩ := hfaithful.exists_answer hm
  have ha := (solve_simplexBackend_iff.1 hsolve).1
  obtain rfl := Except.ok.inj (ha.symm.trans (solve_simplexBackend_iff.1 hsolve').1)
  obtain ⟨e, a₁, e', hsolve₁, hrecord₁⟩ := hfaithful.exists_answer hn
  have ha₁ := (solve_simplexBackend_iff.1 hsolve₁).1
  rw [hbounds] at ha₁
  obtain ⟨hbounded, w, hw, hbest⟩ := not_improves_of_within hp hs ha hverdict ha₁
    fun y hy => (within_append_singleton.1 hy).1
  have hvalue : a.value = m.value := congrArg (fun r => r.2.2) hrecord
  have hvalue₁ : a₁.value = n.value := congrArg (fun r => r.2.2) hrecord₁
  have hstatus₁ : a₁.status = n.status := congrArg (fun r => r.1) hrecord₁
  refine ⟨fun hunbounded => hbounded ?_, w, hvalue ▸ hw, fun v hv => hbest v (hvalue₁ ▸ hv)⟩
  rw [(simplexBackend_isConsistent _ _ _ _ _ _ hsolve₁).verdict_eq, hstatus₁, hunbounded]
  rfl

/-- **Below an ancestor no value is better.** -/
theorem IsParent.not_improves_transGen (hp : p.relaxation.Shaped) (hs : settings.linear.IsExact)
    {events : List (Event K)} (hwell : WellFormed (p.task settings clock) s)
    (hfaithful : Faithful (p.task settings clock) 0 events s)
    (h : Relation.TransGen (IsParent s.tree.nodes) m n) :
    ∃ w, m.value = some w ∧ ∀ v, n.value = some v → p.sense.improves v w = false := by
  induction h with
  | single h => exact (h.not_improves hp hs hwell hfaithful).2
  | tail _ h ih =>
      obtain ⟨-, u, hu, hbest⟩ := h.not_improves hp hs hwell hfaithful
      obtain ⟨w, hw, habove⟩ := ih
      have huw := habove u hu
      refine ⟨w, hw, fun v hv => ?_⟩
      have hvu := hbest v hv
      rw [Sense.improves_eq_false_iff] at huw hvu ⊢
      exact huw.trans hvu

omit [ExactScalar K] in
/-- Every node is the first one or below it. -/
theorem IsTree.eq_or_below_root [Scalar K] [PlainText K] {σ : Type} {task : Task K σ}
    {nodes : List (Node K)} (htree : IsTree task nodes) {r : Node K} (hr : nodes[0]? = some r)
    {i : ℕ} (hn : nodes[i]? = some n) : n = r ∨ Relation.TransGen (IsParent nodes) r n := by
  induction i using Nat.strong_induction_on generalizing n with
  | _ i ih =>
      rcases Nat.eq_zero_or_pos i with rfl | hpos
      · exact .inl (Option.some.inj (hn.symm.trans hr))
      · obtain ⟨m, hm, -, hlt, hparent⟩ := htree.exists_parent hn hpos
        have hparent : IsParent nodes m n :=
          ⟨List.mem_of_getElem? hm, List.mem_of_getElem? hn, hparent⟩
        obtain rfl | hbelow := ih m.id hlt hm
        · exact .inr (.single hparent)
        · exact .inr (hbelow.tail hparent)

end Search

namespace IntegerProgram

open Search

variable [PlainText K]

/-- **With zero tolerances values do not get better along the branches of the tree**, whatever the
other settings: a node below the root is optimal, infeasible or out of pivots, its value is not
better than its parent's, hence not better than that of any ancestor, and no value at all is better
than that of the root relaxation. -/
theorem solve_monotone (p : IntegerProgram K) (settings : Settings K) (clock : Clock)
    (hs : settings.linear.IsExact) {solution : Solution K}
    (h : (p.solve settings clock).outcome = .ok solution) :
    (∀ n ∈ solution.tree, n.parent ≠ none →
      n.status = .optimal ∨ n.status = .infeasible ∨ n.status = .pivotLimit) ∧
    (∀ m n, IsParent solution.tree m n →
      ∃ w, m.value = some w ∧ ∀ v, n.value = some v → p.sense.improves v w = false) ∧
    (∀ m n, Relation.TransGen (IsParent solution.tree) m n →
      ∃ w, m.value = some w ∧ ∀ v, n.value = some v → p.sense.improves v w = false) ∧
    ∀ n ∈ solution.tree, ∀ v, n.value = some v →
      ∃ w, solution.rootValue = some w ∧ p.sense.improves v w = false := by
  obtain ⟨hcheck, h⟩ := solve_eq_ok_iff.1 h
  have hp : p.relaxation.Shaped := p.relaxation.check_eq_ok_iff.1 hcheck
  obtain ⟨s, limit, hrun, rfl, hfaithful⟩ := solve_faithful h
  obtain ⟨hwell, -⟩ := run_keeps (motive := fun _ => True) (fun _ _ => trivial)
    (fun _ _ _ _ => trivial) hrun
  obtain ⟨r, hr, hroot⟩ := run_rootKept hrun
  have htree := run_isTree hrun
  refine ⟨fun n hn hparent => ?_, fun m n hmn => (hmn.not_improves hp hs hwell hfaithful).2,
    fun m n hmn => IsParent.not_improves_transGen hp hs hwell hfaithful hmn, fun n hn v hv => ?_⟩
  · obtain ⟨j, hj⟩ := Option.ne_none_iff_exists'.1 hparent
    obtain ⟨m, hmn⟩ := hwell.isParent hn hj
    have hbounded := (hmn.not_improves hp hs hwell hfaithful).1
    cases hstatus : n.status <;> simp_all
  · obtain ⟨i, hi⟩ := Tree.mem_nodes_iff.1 hn
    obtain rfl | hbelow := htree.eq_or_below_root hr hi
    · exact ⟨v, hroot.trans hv, Sense.improves_eq_false_iff _ _ _ |>.2 le_rfl⟩
    · obtain ⟨w, hw, hbest⟩ := IsParent.not_improves_transGen hp hs hwell hfaithful hbelow
      exact ⟨w, hroot.trans hw, hbest v hv⟩

/-- Maximizing, the root of `halves` and its first child reach `3/2`, and the first child of that
one reaches `1`; the two other nodes have no value. -/
theorem halves_solve_monotone :
    halvesSettings.linear.IsExact ∧
    ∃ solution, (halves.solve halvesSettings fun _ => 0).outcome = .ok solution ∧
      solution.tree.map (fun n => (n.parent, n.value)) =
        [(none, some (3 / 2)), (some 0, some (3 / 2)), (some 0, none), (some 1, some 1),
          (some 1, none)] ∧
      ∀ n ∈ solution.tree, ∀ v, n.value = some v →
        ∃ w, solution.rootValue = some w ∧ halves.sense.improves v w = false := by
  have hs : halvesSettings.linear.IsExact := LinearProgram.Settings.isExact_exact .dantzig 100
  have heval : (halves.solve halvesSettings fun _ => 0).outcome.map
      (fun solution => solution.tree.map fun n => (n.parent, n.value)) =
        .ok [(none, some (3 / 2)), (some 0, some (3 / 2)), (some 0, none), (some 1, some 1),
          (some 1, none)] := by
    decide +kernel
  obtain ⟨solution, hout, hvalues⟩ := exists_of_map_eq_ok heval
  obtain ⟨-, -, -, hroot⟩ := solve_monotone halves halvesSettings (fun _ => 0) hs hout
  exact ⟨hs, solution, hout, hvalues, hroot⟩

end IntegerProgram

end BranchBound
