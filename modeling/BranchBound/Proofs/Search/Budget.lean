import BranchBound.Proofs.Binary64
import BranchBound.Proofs.Search.Validity

/-!
# A larger node budget extends the search

A visit closes branches and adds nodes, counts only grow, and the incumbent is kept or replaced by
a strictly better one: the state after it `Extends` the state before.  The budget decides where the
search stops and nothing else (`outcome_visit_withBudget`).  So the search with the larger budget
passes through the state in which the one with the smaller budget stops (`Proceeds.of_le`), and if
that one stopped because no node was open, both end in the same state.

Of the numbers only the transitivity of `<` is used, which double-precision numbers have too.
-/

namespace BranchBound

variable {K : Type} [Scalar K] {σ : Type}

/-- What is better than something better is better. -/
theorem Sense.improves_trans [IsTrans K (· < ·)] {s : Sense} {a b c : K}
    (hab : s.improves a b = true) (hbc : s.improves b c = true) : s.improves a c = true := by
  cases s with
  | minimize =>
      exact decide_eq_true (IsTrans.trans _ _ _ (of_decide_eq_true hab) (of_decide_eq_true hbc))
  | maximize =>
      exact decide_eq_true (IsTrans.trans _ _ _ (of_decide_eq_true hbc) (of_decide_eq_true hab))

namespace Search

/-! ## States that extend others -/

/-- The same node, unless a branch was closed. -/
def Node.Becomes (n n' : Node K) : Prop :=
  n' = n ∨ n.kind = .branch ∧ n' = { n with kind := .pruned }

omit [Scalar K] in
theorem Node.Becomes.trans {n n' n'' : Node K} (h : n.Becomes n') (h' : n'.Becomes n'') :
    n.Becomes n'' := by
  rcases h with rfl | ⟨hkind, rfl⟩
  · exact h'
  · rcases h' with rfl | ⟨hkind', -⟩
    · exact .inr ⟨hkind, rfl⟩
    · cases hkind'

/-- The incumbent is kept or replaced by a strictly better one, and updates are counted. -/
structure Incumbent.Extends (i i' : Incumbent K) : Prop where
  sense_eq : i'.sense = i.sense
  updates_le : i.updates ≤ i'.updates
  best : i'.best = i.best ∨ ∃ x v, i'.best = some (x, v) ∧
    ∀ w, i.value? = some w → i.sense.improves v w = true

/-- What one state knows, the other knows too. -/
structure Extends (s s' : State K σ) : Prop where
  node : ∀ {i n}, s.tree.node? i = some n → ∃ n', s'.tree.node? i = some n' ∧ n.Becomes n'
  explored_le : s.explored ≤ s'.explored
  pruned_le : s.pruned ≤ s'.pruned
  stalled_le : s.stalled ≤ s'.stalled
  incumbent : s.incumbent.Extends s'.incumbent

namespace Incumbent.Extends

variable {i i' i'' : Incumbent K}

theorem refl (i : Incumbent K) : i.Extends i := ⟨rfl, le_rfl, .inl rfl⟩

theorem trans [IsTrans K (· < ·)] (h : i.Extends i') (h' : i'.Extends i'') : i.Extends i'' := by
  refine ⟨h'.sense_eq.trans h.sense_eq, h.updates_le.trans h'.updates_le, ?_⟩
  rcases h'.best with heq | ⟨x, v, hbest, hbetter⟩
  · rw [heq]
    exact h.best
  · rcases h.best with heq | ⟨x', v', hbest', hbetter'⟩
    · refine .inr ⟨x, v, hbest, ?_⟩
      rw [Incumbent.value?, heq, h.sense_eq] at hbetter
      exact hbetter
    · have hv : i.sense.improves v v' = true := by
        have := hbetter v' (by rw [Incumbent.value?, hbest']; rfl)
        rwa [h.sense_eq] at this
      exact .inr ⟨x, v, hbest, fun w hw => Sense.improves_trans hv (hbetter' w hw)⟩

/-- **An incumbent is only replaced by a strictly better one.** -/
theorem update (i : Incumbent K) (x : List K) (v : K) : i.Extends (i.update x v) := by
  by_cases himp : i.canImprove v = true
  · rw [Incumbent.update, if_pos himp]
    refine ⟨rfl, Nat.le_succ _, .inr ⟨x, v, rfl, ?_⟩⟩
    intro w hw
    obtain ⟨⟨y, w⟩, hbest, rfl⟩ := Option.map_eq_some_iff.1 hw
    rw [Incumbent.canImprove, hbest] at himp
    exact himp
  · rw [Incumbent.update_of_not_canImprove (Bool.eq_false_iff.2 himp)]
    exact refl i

end Incumbent.Extends

variable {task : Task K σ} {s s' : State K σ}

namespace Extends

theorem refl (s : State K σ) : Extends s s where
  node hn := ⟨_, hn, .inl rfl⟩
  explored_le := le_rfl
  pruned_le := le_rfl
  stalled_le := le_rfl
  incumbent := .refl _

theorem trans [IsTrans K (· < ·)] {s₁ : State K σ} (h : Extends s s₁) (h' : Extends s₁ s') :
    Extends s s' where
  node hn := by
    obtain ⟨n', hn', hbecomes⟩ := h.node hn
    obtain ⟨n'', hn'', hbecomes'⟩ := h'.node hn'
    exact ⟨n'', hn'', hbecomes.trans hbecomes'⟩
  explored_le := h.explored_le.trans h'.explored_le
  pruned_le := h.pruned_le.trans h'.pruned_le
  stalled_le := h.stalled_le.trans h'.stalled_le
  incumbent := h.incumbent.trans h'.incumbent

/-- Closing a branch extends the state. -/
theorem close {id : ℕ} {n : Node K} (hn : s.tree.node? id = some n) (hkind : n.kind = .branch) :
    Extends s (Search.close s id) where
  node := by
    intro i m hm
    refine ⟨{ m with kind := if i = id then .pruned else m.kind }, ?_, ?_⟩
    · exact node?_close_of_eq hm id
    · by_cases hi : i = id
      · subst hi
        obtain rfl := Option.some.inj (hn.symm.trans hm)
        exact .inr ⟨hkind, by rw [if_pos rfl]⟩
      · exact .inl (by rw [if_neg hi])
  explored_le := le_rfl
  pruned_le := Nat.le_succ _
  stalled_le := le_rfl
  incumbent := .refl _

/-- A new node extends the state. -/
theorem adds {n : Node K} (h : Adds s s' n) : Extends s s' where
  node hm := ⟨_, by rw [h.tree_eq, Tree.node?_push_of_lt (Tree.lt_size_of_node? hm), hm], .inl rfl⟩
  explored_le := h.learns.explored_eq.ge
  pruned_le := h.learns.pruned_le
  stalled_le := h.learns.stalled_le
  incumbent := by
    rcases h.learns.incumbent with heq | ⟨x, v, heq⟩
    · rw [heq]
      exact .refl _
    · rw [heq]
      exact .update _ x v

variable [PlainText K] [IsTrans K (· < ·)]

/-- **A visit extends the state.** -/
theorem visit (hwell : WellFormed task s) {id : ℕ} {rest : Frontier K}
    (hpop : s.frontier.pop? = some (id, rest))
    (hvisit : (Search.visit task s id rest).outcome = .ok s') : Extends s s' := by
  obtain ⟨-, -, n, hn, hkind, hex⟩ := hwell.visit hpop hvisit
  have htaken : Extends s { s with frontier := rest, explored := s.explored + 1 } :=
    ⟨fun hm => ⟨_, hm, .inl rfl⟩, Nat.le_succ _, le_rfl, le_rfl, .refl _⟩
  refine htaken.trans ?_
  cases hex with
  | closed => exact close hn hkind
  | kept => exact refl _
  | split _ _ addsLow _ addsHigh => exact (adds addsLow).trans (adds addsHigh)

end Extends

/-! ## Searches with different budgets -/

/-- The same task with another node budget and another clock. -/
def Task.withBudget (task : Task K σ) (budget : ℕ) (clock : Clock) : Task K σ :=
  { task with settings := { task.settings with maxNodes := budget }, clock := clock }

variable [PlainText K] {budget budget' : ℕ} {clock clock' : Clock}

/-- **A visit does not depend on the budget**, nor on the clock. -/
theorem outcome_visit_withBudget (id : ℕ) (rest : Frontier K) :
    (visit (task.withBudget budget clock) s id rest).outcome = (visit task s id rest).outcome := by
  rw [outcome_visit, outcome_visit]
  rfl

variable [IsTrans K (· < ·)]

/-- A search goes on to states that extend the one it is in. -/
theorem Proceeds.extends {m : ℕ} {limit : Option Limit}
    (h : Proceeds (task.withBudget budget clock) m s s' limit) (hwell : WellFormed task s) :
    Extends s s' := by
  induction h with
  | exhausted => exact .refl _
  | spent => exact .refl _
  | late => exact .refl _
  | next hpop _ hvisit _ ih =>
      rw [outcome_visit_withBudget] at hvisit
      exact (Extends.visit hwell hpop hvisit).trans (ih (hwell.visit hpop hvisit).1)

/-- **With a smaller budget the search stops on the way**, or both stop because no node is open. -/
theorem Proceeds.of_le (budget : ℕ) (clock : Clock) (htime : task.settings.timeLimit = none)
    {m m' : ℕ} {limit' : Option Limit}
    (h : Proceeds (task.withBudget budget' clock') m' s s' limit') (hwell : WellFormed task s)
    (hle : m ≤ m') : ∃ s₁ limit, Proceeds (task.withBudget budget clock) m s s₁ limit ∧
      Extends s₁ s' ∧ (limit = some .nodes ∨ s₁ = s' ∧ limit = none ∧ limit' = none) := by
  have hlate : ∀ moment, (task.withBudget budget clock).isLate moment = false :=
    Task.isLate_eq_false htime
  induction h generalizing m with
  | exhausted hpop => exact ⟨_, none, .exhausted hpop, .refl _, .inr ⟨rfl, rfl, rfl⟩⟩
  | spent hpop =>
      obtain rfl := Nat.le_zero.1 hle
      exact ⟨_, some .nodes, .spent hpop, .refl _, .inl rfl⟩
  | late _ hlate' =>
      obtain ⟨l, hl⟩ := Task.exists_of_isLate _ hlate'
      cases htime.symm.trans hl
  | next hpop hlate' hvisit hproceeds ih =>
      cases m with
      | zero =>
          exact ⟨_, some .nodes, .spent hpop,
            Proceeds.extends (.next hpop hlate' hvisit hproceeds) hwell, .inl rfl⟩
      | succ m =>
          rw [outcome_visit_withBudget] at hvisit
          obtain ⟨s₁, limit, hproceeds₁, hext, hend⟩ :=
            ih (hwell.visit hpop hvisit).1 (Nat.le_of_succ_le_succ hle)
          refine ⟨s₁, limit, .next hpop (hlate _) ?_ hproceeds₁, hext, hend⟩
          rw [outcome_visit_withBudget]
          exact hvisit

/-! ## Results of searches with different budgets -/

omit [PlainText K] [IsTrans K (· < ·)] in
/-- What one result tells, the other tells too: its tree has the same nodes and perhaps more, of
which some that were branches are closed; its counts are not smaller; and its point is the same or
strictly better. -/
structure Solution.Extends (sense : Sense) (a b : Solution K) : Prop where
  node : ∀ {i : ℕ} {n : Node K}, a.tree[i]? = some n → ∃ n', b.tree[i]? = some n' ∧ n.Becomes n'
  explored_le : a.explored ≤ b.explored
  pruned_le : a.pruned ≤ b.pruned
  stalled_le : a.stalled ≤ b.stalled
  updates_le : a.updates ≤ b.updates
  best : b.x = a.x ∧ b.value = a.value ∨ ∃ x v, b.x = some x ∧ b.value = some v ∧
    ∀ w, a.value = some w → sense.improves v w = true

omit [PlainText K] [IsTrans K (· < ·)] in
/-- The result of a state that extends another extends the other's result. -/
theorem Extends.finish {task' : Task K σ} {limit limit' : Option Limit} {sense : Sense}
    (h : Extends s s') (hsense : s.incumbent.sense = sense) :
    Solution.Extends sense (finish task s limit) (finish task' s' limit') where
  node := h.node
  explored_le := h.explored_le
  pruned_le := h.pruned_le
  stalled_le := h.stalled_le
  updates_le := h.incumbent.updates_le
  best := by
    show s'.incumbent.point? = s.incumbent.point? ∧ s'.incumbent.value? = s.incumbent.value? ∨
      ∃ x v, s'.incumbent.point? = some x ∧ s'.incumbent.value? = some v ∧
        ∀ w, s.incumbent.value? = some w → sense.improves v w = true
    rw [← hsense, Incumbent.point?, Incumbent.value?]
    rcases h.incumbent.best with heq | ⟨x, v, hbest, hbetter⟩
    · rw [heq]
      exact .inl ⟨rfl, rfl⟩
    · rw [hbest]
      exact .inr ⟨x, v, rfl, rfl, hbetter⟩

/-- **A larger node budget only extends the search.**  Without a time limit, if the search with the
larger budget gives a result, so does the one with the smaller budget; the larger result tells all
that the smaller one tells; and if the smaller budget was not what stopped the search, the results
are the same but for the time. -/
theorem solve_of_le_maxNodes (task : Task K σ) (b : σ) (clock clock' : Clock) {k k' : ℕ}
    (htime : task.settings.timeLimit = none) (hle : k ≤ k') {solution' : Solution K}
    (h : (solve (task.withBudget k' clock') b).outcome = .ok solution') :
    ∃ solution, (solve (task.withBudget k clock) b).outcome = .ok solution ∧
      solution.Extends task.sense solution' ∧
      (solution.limit = none ∨ solution.limit = some .pivots →
        solution' = { solution with elapsed := solution'.elapsed }) := by
  obtain ⟨s', limit', hrun, rfl⟩ := solve_eq_ok_iff.1 h
  simp only [run, Recorded.outcome_bind_eq_ok] at hrun
  obtain ⟨⟨s, st⟩, hstart, hrun⟩ := hrun
  -- neither the budget nor the clock is looked at before the root is made
  have hstart : (start task b).outcome = .ok (s, st) := hstart
  obtain ⟨n, hroot⟩ := start_cases hstart
  cases st with
  | settled =>
      obtain ⟨rfl, rfl⟩ : s = s' ∧ none = limit' := by simpa using hrun
      refine ⟨finish (task.withBudget k clock) s none, ?_, (Extends.refl s).finish hroot.sense_eq,
        fun _ => rfl⟩
      refine solve_eq_ok_iff.2 ⟨s, none, ?_, rfl⟩
      exact Recorded.outcome_bind_eq_ok.2 ⟨(s, .settled), hstart, rfl⟩
  | growing =>
      obtain ⟨s₁, limit, hproceeds, hext, hend⟩ := (grow_eq_ok_iff.1 hrun).of_le k clock
        htime hroot.wellFormed hle
      have hsense : s₁.incumbent.sense = task.sense :=
        (hproceeds.extends hroot.wellFormed).incumbent.sense_eq.trans hroot.sense_eq
      refine ⟨finish (task.withBudget k clock) s₁ limit, ?_, hext.finish hsense, ?_⟩
      · refine solve_eq_ok_iff.2 ⟨s₁, limit, ?_, rfl⟩
        exact Recorded.outcome_bind_eq_ok.2
          ⟨(s, .growing), hstart, grow_eq_ok_iff.2 hproceeds⟩
      · rcases hend with rfl | ⟨rfl, rfl, rfl⟩
        · -- the result of a search that its budget stopped says so
          rintro (hlimit | hlimit) <;> cases hlimit
        · exact fun _ => rfl

/-- A budget of one node stops the search of `halves` after the first split; with a hundred nodes
the tree gets another two nodes, and there is an incumbent. -/
theorem halves_solve_of_le_maxNodes :
    halvesSettings.timeLimit = none ∧ 1 ≤ 100 ∧ IsTrans ℚ (· < ·) ∧
    ∃ solution solution',
      (solve ((halves.task halvesSettings fun _ => 0).withBudget 1 fun _ => 0) 0).outcome =
        .ok solution ∧
      (solve ((halves.task halvesSettings fun _ => 0).withBudget 100 fun _ => 7) 0).outcome =
        .ok solution' ∧
      solution.limit = some .nodes ∧ solution.tree.length = 3 ∧ solution'.tree.length = 5 ∧
        solution.Extends .maximize solution' := by
  have heval : (solve ((halves.task halvesSettings fun _ => 0).withBudget 100
      fun _ => 7) 0).outcome.map (fun solution => solution.tree.length) = .ok 5 := by
    decide +kernel
  have heval₁ : (solve ((halves.task halvesSettings fun _ => 0).withBudget 1
      fun _ => 0) 0).outcome.map (fun solution => (solution.limit, solution.tree.length)) =
        .ok (some .nodes, 3) := by
    decide +kernel
  obtain ⟨solution', hout', hsize'⟩ := exists_of_map_eq_ok heval
  obtain ⟨solution, hout, hext, -⟩ := solve_of_le_maxNodes (halves.task halvesSettings fun _ => 0)
    0 (fun _ => 0) (fun _ => 7) rfl (show 1 ≤ 100 by decide) hout'
  obtain ⟨solution₁, hout₁, hlimit⟩ := exists_of_map_eq_ok heval₁
  obtain rfl := Except.ok.inj (hout.symm.trans hout₁)
  obtain ⟨hlimit, hsize⟩ := Prod.mk.inj hlimit
  exact ⟨rfl, by decide, inferInstance, solution, solution', hout, hout', hlimit, hsize, hsize',
    hext⟩

end Search

end BranchBound
