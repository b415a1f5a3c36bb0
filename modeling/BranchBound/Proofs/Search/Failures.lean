import BranchBound.Proofs.Answering
import BranchBound.Proofs.Search.Dialogue

/-!
# When a search fails

With a backend that answers all bounds on the program's variables, a search fails only if the
relaxation of its root is unbounded.  What carries this is that every node can be asked for
(`Node.Fits`): its bounds are on variables of the program, at numbers, and its point has no more
coordinates than there are variables.  A split is at a coordinate of the point that is far from a
whole number, so its halves are bounds of this kind again (`IsSplit.fits`), and no step of the
search fails (`Fitted.visit`).

A program that passes its check is solved by such a backend, the simplex method.  So an integer
program is refused for a defect or because its root is unbounded, and otherwise solved
(`solve_error_contract`).
-/

namespace BranchBound

variable {K : Type} [Scalar K] {σ : Type}

namespace Search

open Relaxation

variable {task : Task K σ} {s : State K σ} {b : σ} {n : ℕ}

/-! ## Nodes that can be asked for -/

/-- The bounds of the node are on `n` variables, at numbers, and its point has at most `n`
coordinates. -/
structure Node.Fits (m : Node K) (n : ℕ) : Prop where
  bounds : ∀ c ∈ m.bounds, c.Fits n
  length_le : m.x.length ≤ n

/-- Every node of the tree fits. -/
def Fitted (n : ℕ) (s : State K σ) : Prop := ∀ m ∈ s.tree.nodes, m.Fits n

/-- **Both halves of a split fit**, because the value that is split is a number. -/
theorem Branching.IsSplit.fits (hround : Scalar.RoundsToNumbers K) {tol : K} {x : List K}
    {d : Decision K} (h : IsSplit tol x d) (hx : x.length ≤ n) : d.down.Fits n ∧ d.up.Fits n := by
  have hvar : d.var < n := h.var_lt_length.trans_le hx
  have hvalue := hround.isFinite_of_lt_fractionality h.lt_fractionality
  rw [h.down_eq, h.up_eq]
  exact ⟨⟨hvar, hround.isFinite_floor hvalue⟩, ⟨hvar, hround.isFinite_ceil hvalue⟩⟩

/-! ## No step fails -/

/-- Classifying a child never fails. -/
theorem exists_classify (task : Task K σ) (s : State K σ) (id : ℕ) (v : K) (a : Answer K) :
    ∃ r, (classify task s id v a).outcome = .ok r := by
  unfold classify
  split
  · exact ⟨_, rfl⟩
  · split
    · split <;> exact ⟨_, rfl⟩
    · split <;> exact ⟨_, rfl⟩
  · exact ⟨_, rfl⟩

namespace Fitted

/-- Closing a node changes neither its bounds nor its point. -/
theorem close (h : Fitted n s) (id : ℕ) : Fitted n (close s id) := by
  intro q hq
  obtain ⟨i, hi⟩ := Tree.mem_nodes_iff.1 hq
  obtain ⟨m, hm, rfl⟩ := exists_of_node?_close hi
  have hfits := h m (Tree.mem_nodes_iff.2 ⟨i, hm⟩)
  exact ⟨hfits.bounds, hfits.length_le⟩

variable (hanswers : task.backend.Answers n)
include hanswers

/-- **A child that fits can be added, and it is a node that fits.** -/
theorem addChild [PlainText K] (h : Fitted n s) {p : Node K} (hp : p.Fits n) (v : K)
    {bound : Bound K} (hbound : bound.Fits n) :
    ∃ s', (addChild task p v s bound).outcome = .ok s' ∧ Fitted n s' := by
  have hbounds : ∀ c ∈ p.bounds ++ [bound], c.Fits n := by
    intro c hc
    rcases List.mem_append.1 hc with hc | hc
    · exact hp.bounds c hc
    · obtain rfl := List.mem_singleton.1 hc
      exact hbound
  obtain ⟨a, c, hsolve, hlen⟩ := hanswers s.backend _ hbounds
  obtain ⟨⟨kind, s₁⟩, hclassify⟩ :=
    exists_classify task { s with backend := c } s.tree.nextId v a
  obtain ⟨s', hok⟩ : ∃ s', (Search.addChild task p v s bound).outcome = .ok s' := by
    simp only [Search.addChild, Recorded.outcome_bind_eq_ok]
    by_cases hkind : kind = .branch
    · exact ⟨_, (a, { s with backend := c }), relax_eq_ok_iff.2 ⟨c, hsolve, rfl⟩, (kind, s₁),
        hclassify, by rw [if_pos hkind]; rfl⟩
    · exact ⟨_, (a, { s with backend := c }), relax_eq_ok_iff.2 ⟨c, hsolve, rfl⟩, (kind, s₁),
        hclassify, by rw [if_neg hkind]; rfl⟩
  refine ⟨s', hok, ?_⟩
  obtain ⟨m, a', s₂, hjoins⟩ := addChild_joins hok
  obtain ⟨c', hsolve', -⟩ := hjoins.answered
  obtain ⟨rfl, -⟩ := Prod.mk.inj (Except.ok.inj (hsolve'.symm.trans hsolve))
  obtain ⟨hchild, -, hnodes⟩ := hjoins.isChild
  intro q hq
  rw [hnodes] at hq
  rcases List.mem_append.1 hq with hq | hq
  · exact h q hq
  · obtain rfl := List.mem_singleton.1 hq
    refine ⟨hchild.bounds_eq ▸ hbounds, ?_⟩
    rw [hjoins.node_eq]
    exact hlen

variable (hround : Scalar.RoundsToNumbers K)
include hround

variable [PlainText K]

/-- **Processing a node of the tree never fails.** -/
theorem explore (h : Fitted n s) {id : ℕ} {m : Node K} (hm : s.tree.node? id = some m) :
    ∃ s', (explore task s id).outcome = .ok s' ∧ Fitted n s' := by
  have hfits := h m (Tree.mem_nodes_iff.2 ⟨id, hm⟩)
  rw [Search.explore, Tree.node, hm]
  simp only [Except.mapError, Recorded.ofExcept_ok, Recorded.bind_ok, List.nil_append]
  split
  · exact ⟨_, rfl, h.close id⟩
  · split
    · exact ⟨s, rfl, h⟩
    · rename_i d hsplit
      obtain ⟨hdown, hup⟩ := (Branching.isSplit_of_split? hsplit).fits hround hfits.length_le
      obtain ⟨s₁, hlow, h₁⟩ := h.addChild hanswers hfits _ hdown
      obtain ⟨s₂, hhigh, h₂⟩ := h₁.addChild hanswers hfits _ hup
      refine ⟨s₂, ?_, h₂⟩
      simp only [Recorded.report_eq, Recorded.bind_ok, Recorded.outcome_bind_eq_ok]
      exact ⟨s₁, hlow, hhigh⟩

/-- **A visit never fails.** -/
theorem visit (h : Fitted n s) (hwell : WellFormed task s) {id : ℕ} {rest : Frontier K}
    (hpop : s.frontier.pop? = some (id, rest)) :
    ∃ s', (visit task s id rest).outcome = .ok s' ∧ Fitted n s' := by
  obtain ⟨e, rfl, hperm, -⟩ := Frontier.perm_of_pop?_eq_some hpop
  obtain ⟨⟨m, hm, -⟩, -⟩ := hwell.opened e (hperm.mem_iff.2 List.mem_cons_self)
  rw [outcome_visit]
  exact explore hanswers hround (s := { s with frontier := rest, explored := s.explored + 1 }) h hm

/-- **The loop never fails, whatever its budget.** -/
theorem exists_proceeds (h : Fitted n s) (hwell : WellFormed task s) (budget : ℕ) :
    ∃ s' limit, Proceeds task budget s s' limit ∧ Fitted n s' := by
  induction budget generalizing s with
  | zero =>
      cases hpop : s.frontier.pop? with
      | none => exact ⟨s, none, .exhausted hpop, h⟩
      | some r => exact ⟨s, some .nodes, .spent hpop, h⟩
  | succ budget ih =>
      cases hpop : s.frontier.pop? with
      | none => exact ⟨s, none, .exhausted hpop, h⟩
      | some r =>
          obtain ⟨id, rest⟩ := r
          cases hlate : task.isLate (.beforeNode s.explored) with
          | true => exact ⟨s, some .time, .late hpop hlate, h⟩
          | false =>
              obtain ⟨s₁, hvisit, h₁⟩ := h.visit hanswers hround hwell hpop
              obtain ⟨s', limit, hproceeds, h'⟩ := ih h₁ (hwell.visits hpop hvisit).1
              exact ⟨s', limit, .next hpop hlate hvisit hproceeds, h'⟩

end Fitted

/-! ## The whole search -/

/-- The root fails only if its relaxation is unbounded. -/
theorem outcome_start {a : Answer K} {c : σ}
    (hsolve : (task.backend.solve b []).outcome = .ok (a, c)) :
    (a.verdict = .unbounded ∧ (start task b).outcome = .error (.failed .unbounded)) ∨
      (a.verdict ≠ .unbounded ∧ ∃ r, (start task b).outcome = .ok r) := by
  have hrelax : (relax task (State.initial task.sense b) []).outcome =
      .ok (a, { State.initial task.sense b with backend := c }) :=
    relax_eq_ok_iff.2 ⟨c, hsolve, rfl⟩
  simp only [start, plantRoot, Recorded.report_eq, Recorded.bind_ok, Recorded.outcome_bind, hrelax]
  show (_ ∧ (settleRoot task _ a).outcome = _) ∨ _ ∧ ∃ r, (settleRoot task _ a).outcome = .ok r
  unfold settleRoot
  cases hverdict : a.verdict with
  | unbounded => exact .inl ⟨rfl, rfl⟩
  | infeasible => exact .inr ⟨by simp, _, rfl⟩
  | pivotLimit => exact .inr ⟨by simp, _, rfl⟩
  | optimal =>
      refine .inr ⟨by simp, ?_⟩
      simp only
      split <;> exact ⟨_, rfl⟩

section Answers

variable [PlainText K] (hanswers : task.backend.Answers n) (hround : Scalar.RoundsToNumbers K)
include hanswers hround

/-- **A search that starts comes to its end**, and all its nodes fit. -/
theorem exists_run {r : State K σ × Start} (h : (start task b).outcome = .ok r) :
    ∃ s limit, (run task b).outcome = .ok (s, limit) ∧ Fitted n s := by
  obtain ⟨s, st⟩ := r
  obtain ⟨a, c, hsolve, hplants⟩ := start_plants h
  obtain ⟨m, hrooted⟩ := hplants.rooted hsolve
  obtain ⟨a', c', hsolve', hlen⟩ := hanswers b [] (by simp)
  obtain ⟨rfl, -⟩ := Prod.mk.inj (Except.ok.inj (hsolve'.symm.trans hsolve))
  have hfitted : Fitted n s := by
    obtain ⟨kind, htree⟩ : ∃ kind, s.tree.nodes = [rootNode a' kind] := by
      cases hplants <;> exact ⟨_, rfl⟩
    intro q hq
    rw [htree] at hq
    obtain rfl := List.mem_singleton.1 hq
    exact ⟨by simp [rootNode, Node.root, Node.withRelaxation], hlen⟩
  cases st with
  | settled => exact ⟨s, none, run_eq_ok_iff.2 (.settled h), hfitted⟩
  | growing =>
      obtain ⟨s', limit, hproceeds, h'⟩ :=
        hfitted.exists_proceeds hanswers hround hrooted.wellFormed task.settings.maxNodes
      exact ⟨s', limit, run_eq_ok_iff.2 (.grown h hproceeds), h'⟩

/-- **Where the backend answers, a search fails exactly if the root is unbounded**, and it asks for
nothing but bounds that fit. -/
theorem outcome_solve {a : Answer K} {c : σ}
    (hsolve : (task.backend.solve b []).outcome = .ok (a, c)) :
    ((a.verdict = .unbounded ∧ (solve task b).outcome = .error (.failed .unbounded)) ∨
      (a.verdict ≠ .unbounded ∧ ∃ solution, (solve task b).outcome = .ok solution)) ∧
    ∀ bounds ∈ relaxations (solve task b).events, ∀ d ∈ bounds, d.Fits n := by
  obtain ⟨hverdict, hstart⟩ | ⟨hverdict, r, hstart⟩ := outcome_start hsolve
  · have hrun : (run task b).outcome = .error (.failed .unbounded) := by
      rw [run, Recorded.outcome_bind, hstart]
      rfl
    refine ⟨.inl ⟨hverdict, ?_⟩, fun bounds hbounds d hd => ?_⟩
    · rw [solve, Recorded.outcome_bind, hrun]
      rfl
    · -- the root is all that was asked for
      rw [solve, Recorded.events_bind_error hrun, run, Recorded.events_bind_error hstart,
        ← relaxations_exchanges, exchanges_start hsolve] at hbounds
      obtain rfl : bounds = [] := List.mem_singleton.1 hbounds
      cases hd
  · obtain ⟨s, limit, hrun, hfitted⟩ := exists_run hanswers hround hstart
    have hok := solve_eq_ok_iff.2 ⟨s, limit, hrun, rfl⟩
    obtain ⟨s', limit', hrun', -, hfaithful⟩ := solve_faithful hok
    obtain ⟨rfl, -⟩ := Prod.mk.inj (Except.ok.inj (hrun.symm.trans hrun'))
    refine ⟨.inr ⟨hverdict, _, hok⟩, fun bounds hbounds d hd => ?_⟩
    rw [hfaithful.asked] at hbounds
    obtain ⟨m, hm, rfl⟩ := List.mem_map.1 hbounds
    exact (hfitted m hm).bounds d hd

end Answers

end Search

/-! ## Integer programs -/

/-- What makes a program unfit: it has no variables, its rows and its limits differ in number, a row
has the wrong length, or an entry is not a number. -/
def LinearProgram.IsUnfit (p : LinearProgram K) : Prop :=
  p.objective = [] ∨ p.rows.length ≠ p.limits.length ∨
    (∃ row ∈ p.rows, row.length ≠ p.objective.length) ∨
      ∃ v ∈ p.objective ++ p.rows.flatten ++ p.limits, Scalar.isFinite v = false

/-- Unfit are the programs that do not pass their check. -/
theorem LinearProgram.isUnfit_iff (p : LinearProgram K) :
    p.IsUnfit ↔ ¬ (p.Shaped ∧ p.IsFinite) := by
  have hshaped : p.Shaped ↔ p.objective ≠ [] ∧ p.rows.length = p.limits.length ∧
      ∀ row ∈ p.rows, row.length = p.objective.length :=
    ⟨fun h => ⟨List.ne_nil_of_length_pos h.vars_pos, h.rows_length, h.row_length⟩,
      fun h => ⟨List.length_pos_of_ne_nil h.1, h.2.1, h.2.2⟩⟩
  have hfinite : p.IsFinite ↔
      ∀ v ∈ p.objective ++ p.rows.flatten ++ p.limits, Scalar.isFinite v = true := by
    simp only [List.mem_append, List.mem_flatten, or_imp, forall_and, forall_exists_index, and_imp]
    exact ⟨fun h => ⟨⟨h.objective, fun v row hrow hv => h.rows row hrow v hv⟩, h.limits⟩,
      fun h => ⟨h.1.1, fun row hrow v hv => h.1.2 v row hrow hv, h.2⟩⟩
  rw [hshaped, hfinite, IsUnfit]
  simp only [not_and_or, not_forall, exists_prop, Bool.not_eq_true, ne_eq, not_not, or_assoc]

namespace IntegerProgram

open Search Relaxation

variable [PlainText K] (p : IntegerProgram K) (settings : Settings K) (clock : Clock)

/-- An unfit program is refused before the search, and any other is searched. -/
theorem solve_cases :
    (p.relaxation.IsUnfit ∧ ∃ defect,
      p.solve settings clock = Recorded.stop (.failed (.invalidProblem (.defect defect)))) ∨
    (p.relaxation.Shaped ∧ p.relaxation.IsFinite ∧
      p.solve settings clock = Search.solve (p.task settings clock) 0) := by
  have hok := p.relaxation.check_eq_ok_iff_isFinite
  cases hcheck : p.relaxation.check with
  | error defect =>
      refine .inl ⟨p.relaxation.isUnfit_iff.2 fun h => ?_, defect, by rw [solve, check, hcheck]⟩
      rw [hok.2 h] at hcheck
      cases hcheck
  | ok _ =>
      obtain ⟨hshaped, hfinite⟩ := hok.1 hcheck
      exact .inr ⟨hshaped, hfinite, by rw [solve, check, hcheck]⟩

/-- **When an integer program is not solved.**  It is refused exactly if it is unfit.  A program
that is fit has a relaxation without bounds, and it is found unbounded exactly if that relaxation
is, and solved otherwise.  There is no other failure, and every bound that the search asks for
becomes a row. -/
theorem solve_error_contract [LawfulScalar K] (hround : Scalar.RoundsToNumbers K)
    (htol : 0 ≤ settings.linear.pivotTol) :
    ((∃ refusal, (p.solve settings clock).outcome = .error (.failed (.invalidProblem refusal))) ↔
      p.relaxation.IsUnfit) ∧
    (¬ p.relaxation.IsUnfit → ∃ a,
      (solveBounded settings.linear p.relaxation []).outcome = .ok a ∧
      ((p.solve settings clock).outcome = .error (.failed .unbounded) ↔ a.verdict = .unbounded) ∧
      (a.verdict ≠ .unbounded → ∃ solution, (p.solve settings clock).outcome = .ok solution)) ∧
    (∀ reason, (p.solve settings clock).outcome = .error reason →
      (∃ refusal, reason = .failed (.invalidProblem refusal)) ∨ reason = .failed .unbounded) ∧
    ∀ bounds ∈ relaxations (p.solve settings clock).events, ∀ b ∈ bounds,
      b.var < p.numVars ∧ ∃ row, b.toRow p.numVars = .ok row := by
  obtain ⟨hunfit, defect, hsolve⟩ | ⟨hshaped, hfinite, hsolve⟩ := p.solve_cases settings clock
  · rw [hsolve]
    refine ⟨iff_of_true ⟨_, rfl⟩ hunfit, fun hfit => absurd hunfit hfit, ?_, by
      simp [Recorded.stop, relaxations]⟩
    rintro reason ⟨⟩
    exact .inl ⟨_, rfl⟩
  · have hfit : ¬ p.relaxation.IsUnfit := fun h => p.relaxation.isUnfit_iff.1 h ⟨hshaped, hfinite⟩
    have hanswers : (p.task settings clock).backend.Answers p.numVars :=
      simplexBackend_answers hshaped hfinite htol
    obtain ⟨a, c, hroot, -⟩ := hanswers 0 [] (by simp)
    have hanswer : (solveBounded settings.linear p.relaxation []).outcome = .ok a :=
      (solve_simplexBackend_iff.1 hroot).1
    obtain ⟨houtcome, hasked⟩ := outcome_solve hanswers hround hroot
    have hrows : ∀ bounds ∈ relaxations (Search.solve (p.task settings clock) 0).events,
        ∀ b ∈ bounds, b.var < p.numVars ∧ ∃ row, b.toRow p.numVars = .ok row := by
      intro bounds hmem b hb
      have hfits := hasked bounds hmem b hb
      obtain ⟨row, limit, hrow, -⟩ := hfits.exists_toRow
      exact ⟨hfits.var_lt, (row, limit), hrow⟩
    rw [hsolve]
    obtain ⟨hverdict, hout⟩ | ⟨hverdict, solution, hout⟩ := houtcome
    · rw [hout]
      refine ⟨iff_of_false (by simp) hfit,
        fun _ => ⟨a, hanswer, iff_of_true rfl hverdict, fun h => absurd hverdict h⟩, ?_, hrows⟩
      rintro reason ⟨⟩
      exact .inr rfl
    · rw [hout]
      refine ⟨iff_of_false (by simp) hfit,
        fun _ => ⟨a, hanswer, iff_of_false (by simp) hverdict, fun _ => ⟨solution, rfl⟩⟩, ?_, hrows⟩
      rintro reason ⟨⟩

/-- The relaxation of `halves` has an optimum, so its search comes to an end.  Without constraints a
variable to be maximized is unbounded. -/
theorem halves_solve_error_contract :
    (0 : ℚ) ≤ halvesSettings.linear.pivotTol ∧
    (¬ halves.relaxation.IsUnfit ∧
      ∃ solution, (halves.solve halvesSettings fun _ => 0).outcome = .ok solution) ∧
    ((ofParts [(1 : ℚ)] [] [] true).solve halvesSettings fun _ => 0).outcome =
      .error (.failed .unbounded) := by
  have htol : (0 : ℚ) ≤ halvesSettings.linear.pivotTol := le_rfl
  have hfit : ∀ p : IntegerProgram ℚ, p.relaxation.check = .ok () → ¬ p.relaxation.IsUnfit :=
    fun p hcheck h => p.relaxation.isUnfit_iff.1 h (p.relaxation.check_eq_ok_iff_isFinite.1 hcheck)
  have hcontract := fun p => solve_error_contract p halvesSettings (fun _ => 0)
    ExactScalar.roundsToNumbers htol
  refine ⟨htol, ⟨hfit halves rfl, ?_⟩, ?_⟩
  · obtain ⟨a, ha, -, hsolved⟩ := (hcontract halves).2.1 (hfit halves rfl)
    have heval : (solveBounded halvesSettings.linear halves.relaxation []).outcome.map
        (fun a => a.verdict) = .ok .optimal := by
      decide +kernel
    rw [ha] at heval
    refine hsolved fun hunbounded => ?_
    rw [Except.map, hunbounded] at heval
    cases heval
  · obtain ⟨a, ha, hunbounded, -⟩ := (hcontract (ofParts [1] [] [] true)).2.1 (hfit _ rfl)
    have heval : (solveBounded halvesSettings.linear (ofParts [(1 : ℚ)] [] [] true).relaxation
        []).outcome.map (fun a => a.verdict) = .ok .unbounded := by
      decide +kernel
    rw [ha] at heval
    exact hunbounded.2 (Except.ok.inj heval)

end IntegerProgram

end BranchBound
