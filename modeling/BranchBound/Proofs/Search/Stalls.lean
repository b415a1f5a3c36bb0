import BranchBound.Proofs.Binary64
import BranchBound.Proofs.Search.Steps

/-!
# Subtrees that were given up

A child whose relaxation ends without a verdict is closed, and the value of its parent is noted as
the stalled bound.  If the answers of the backend are consistent (`Backend.IsConsistent`) and their
values come from a linear order (`Scalar.OrderedOn`), then the tree shows which nodes were given up,
and the stalled bound is the best of the values of their parents (`Traced`).  This holds of the root
(`Traced.root`), and every visit keeps it (`Traced.visit`).
-/

namespace BranchBound

variable {K : Type} [Scalar K] {σ : Type}

/-! ## Values from a linear order -/

/-- On the values in `S` the comparison `<` is that of a linear order: no two of them are below each
other, and if one is below another, each third one is above the first or below the second. -/
structure Scalar.OrderedOn (S : Set K) : Prop where
  asymm : ∀ {a b : K}, a ∈ S → b ∈ S → a < b → ¬ b < a
  cotrans : ∀ {a b c : K}, a ∈ S → b ∈ S → c ∈ S → a < b → a < c ∨ c < b

/-- Exact scalars are in order. -/
theorem ExactScalar.orderedOn {L : Type} [ExactScalar L] (S : Set L) : Scalar.OrderedOn S where
  asymm _ _ h := h.le.not_gt
  cotrans {a b c} _ _ _ h := by
    rcases lt_or_ge a c with hac | hca
    · exact .inl hac
    · exact .inr (hca.trans_lt h)

/-- Double-precision numbers are in order as long as they are defined. -/
theorem Binary64.orderedOn {S : Set Binary64} (hS : ∀ v ∈ S, v.toFloat.isNaN = false) :
    Scalar.OrderedOn S := by
  have hdefined : ∀ {v : Binary64}, v ∈ S →
      v.toFloat.toModel.unpack ≠ Float.Model.UnpackedFloat.notANumber := by
    intro v hv hnan
    have hdef := hS v hv
    rw [Float.isNaN, Float.Model.isNaN, hnan] at hdef
    cases hdef
  refine ⟨fun {a b} _ _ hab hba => ?_, fun {a b c} ha hb hc hab => ?_⟩
  · obtain ⟨-, -, hab⟩ := lt_iff_place.1 (of_decide_eq_true hab)
    obtain ⟨-, -, hba⟩ := lt_iff_place.1 (of_decide_eq_true hba)
    exact hab.le.not_gt hba
  · obtain ⟨-, -, hab⟩ := lt_iff_place.1 (of_decide_eq_true hab)
    rcases lt_or_ge (place a.toFloat.toModel.unpack) (place c.toFloat.toModel.unpack) with
      hac | hca
    · exact .inl (decide_eq_true (lt_iff_place.2 ⟨hdefined ha, hdefined hc, hac⟩))
    · exact .inr (decide_eq_true
        (lt_iff_place.2 ⟨hdefined hc, hdefined hb, hca.trans_lt hab⟩))

namespace Scalar.OrderedOn

variable {S : Set K} (h : OrderedOn S) (sense : Sense) {a b c : K}
include h

/-- Of two values at most one is better than the other. -/
theorem improves_asymm (ha : a ∈ S) (hb : b ∈ S) (hab : sense.improves a b = true) :
    sense.improves b a = false := by
  cases sense with
  | minimize => exact decide_eq_false (h.asymm ha hb (of_decide_eq_true hab))
  | maximize => exact decide_eq_false (h.asymm hb ha (of_decide_eq_true hab))

/-- No value is better than itself. -/
theorem improves_self (ha : a ∈ S) : sense.improves a a = false := by
  by_contra himproves
  rw [Bool.not_eq_false] at himproves
  rw [h.improves_asymm sense ha ha himproves] at himproves
  cases himproves

/-- If one value is better than another, each third one is worse than the first or better than the
second. -/
theorem improves_cotrans (ha : a ∈ S) (hb : b ∈ S) (hc : c ∈ S)
    (hab : sense.improves a b = true) :
    sense.improves a c = true ∨ sense.improves c b = true := by
  cases sense with
  | minimize =>
      exact (h.cotrans ha hb hc (of_decide_eq_true hab)).imp decide_eq_true decide_eq_true
  | maximize =>
      exact (h.cotrans hb ha hc (of_decide_eq_true hab)).symm.imp decide_eq_true decide_eq_true

/-- What is not better than a value is not better than what that value is not better than. -/
theorem not_improves_trans (ha : a ∈ S) (hb : b ∈ S) (hc : c ∈ S)
    (hab : sense.improves a b = false) (hbc : sense.improves b c = false) :
    sense.improves a c = false := by
  by_contra hac
  rw [Bool.not_eq_false] at hac
  rcases h.improves_cotrans sense ha hc hb hac with h' | h'
  · rw [hab] at h'
    cases h'
  · rw [hbc] at h'
    cases h'

end Scalar.OrderedOn

/-! ## Consistent answers -/

namespace Relaxation

/-- The answer has a value exactly if it is optimal, and its status says the same as its verdict. -/
structure Answer.IsConsistent (a : Answer K) : Prop where
  value_iff : a.value ≠ none ↔ a.verdict = .optimal
  verdict_eq : a.verdict = .ofStatus a.status

/-- The backend's answers have a value exactly if they are optimal. -/
def Backend.IsValued (backend : Backend K σ) : Prop :=
  ∀ b bounds a b', (backend.solve b bounds).outcome = .ok (a, b') →
    (a.value ≠ none ↔ a.verdict = .optimal)

/-- Every answer of the backend is consistent. -/
def Backend.IsConsistent (backend : Backend K σ) : Prop :=
  ∀ b bounds a b', (backend.solve b bounds).outcome = .ok (a, b') → a.IsConsistent

/-- The values that the backend can answer. -/
def Backend.values (backend : Backend K σ) : Set K :=
  {v | ∃ b bounds a b', (backend.solve b bounds).outcome = .ok (a, b') ∧ a.value = some v}

omit [Scalar K] in
/-- Consistent answers have values when they should. -/
theorem Backend.IsConsistent.isValued {backend : Backend K σ} (h : backend.IsConsistent) :
    backend.IsValued := fun b bounds a b' hsolve => (h b bounds a b' hsolve).value_iff

omit [Scalar K] in
/-- The answer that a linear solution gives is consistent. -/
theorem Answer.isConsistent_ofSolution (s : LinearProgram.Solution K) :
    (Answer.ofSolution s).IsConsistent where
  value_iff := by
    cases hstatus : s.status <;>
      simp [Answer.ofSolution, hstatus, LinearProgram.Status.isOptimal, Verdict.ofStatus]
  verdict_eq := rfl

/-- **The simplex method answers consistently.** -/
theorem simplexBackend_isConsistent (settings : LinearProgram.Settings K) (p : LinearProgram K) :
    (simplexBackend settings p).IsConsistent := by
  intro b bounds a b' h
  simp only [simplexBackend, Recorded.outcome_bind_eq_ok, Recorded.outcome_pure, Except.ok.injEq,
    Prod.mk.injEq] at h
  obtain ⟨a', hsolve, rfl, -⟩ := h
  unfold solveBounded at hsolve
  split at hsolve
  · simp [Recorded.stop] at hsolve
  · split at hsolve
    · simp [Recorded.stop] at hsolve
    · obtain ⟨solution, -, hanswer⟩ := Recorded.outcome_bind_eq_ok.1 hsolve
      obtain rfl : Answer.ofSolution solution = a' := by simpa using hanswer
      exact Answer.isConsistent_ofSolution solution

end Relaxation

namespace Search

open Relaxation

/-! ## Where values come from -/

variable {task : Task K σ} {s s' : State K σ} {p n : Node K}

/-- The stalled bound after a stall is the one before or the value of the parent. -/
theorem stalledBound_noteStall_cases {sense : Sense} {v b : K}
    (h : (noteStall sense s v).stalledBound = some b) : b = v ∨ s.stalledBound = some b := by
  unfold noteStall at h
  cases hbound : s.stalledBound with
  | none =>
      rw [hbound] at h
      exact .inl (Option.some.inj h).symm
  | some c =>
      rw [hbound] at h
      obtain rfl := Option.some.inj h
      by_cases himproves : sense.improves v c = true
      · exact .inl (if_pos himproves)
      · exact .inr (congrArg some (if_neg himproves).symm)

/-- The stalled bound after a child is classified is the one before or the value of the parent. -/
theorem Classifies.stalledBound_cases {v : K} {a : Answer K} {kind : NodeKind}
    (h : Classifies task s v a kind s') {b : K} (hb : s'.stalledBound = some b) :
    b = v ∨ s.stalledBound = some b := by
  cases h with
  | infeasible _ => exact .inr hb
  | integer _ _ _ => exact .inr hb
  | branch _ _ _ _ => exact .inr hb
  | pruned _ _ _ _ => exact .inr hb
  | stalled _ _ => exact stalledBound_noteStall_cases hb

/-- The value of the incumbent after a child is classified is the one before or the child's. -/
theorem Classifies.incumbent_value_cases {v : K} {a : Answer K} {kind : NodeKind}
    (h : Classifies task s v a kind s') {w : K} (hw : s'.incumbent.value? = some w) :
    s.incumbent.value? = some w ∨ a.value = some w := by
  obtain heq | ⟨w', hw', heq⟩ := h.incumbent_cases
  · exact .inl (heq ▸ hw)
  · rw [heq] at hw
    rcases best_update_cases s.incumbent a.x w' with hbest | hbest
    · exact .inl (by rwa [Incumbent.value?, hbest] at hw)
    · rw [Incumbent.value?, hbest] at hw
      exact .inr (hw'.trans hw)

/-- All values in the state come from the backend, and branches have one. -/
structure Valued (task : Task K σ) (s : State K σ) : Prop where
  /-- The value of the incumbent comes from the backend. -/
  incumbent_mem : ∀ v, s.incumbent.value? = some v → v ∈ task.backend.values
  /-- The value of a node comes from the backend. -/
  value_mem : ∀ n ∈ s.tree.nodes, ∀ v, n.value = some v → v ∈ task.backend.values
  /-- A branch has a value. -/
  valued : ∀ n ∈ s.tree.nodes, n.kind = .branch → n.value ≠ none
  /-- The stalled bound comes from the backend. -/
  stalled_mem : ∀ v, s.stalledBound = some v → v ∈ task.backend.values

namespace Valued

/-- The value of the root comes from the backend. -/
theorem root (hvalued : task.backend.IsValued) {b c : σ} {a : Answer K} {st : Start}
    (hsolve : (task.backend.solve b []).outcome = .ok (a, c)) (h : Plants task c a s st) :
    Valued task s := by
  have hvalue : ∀ v, a.value = some v → v ∈ task.backend.values :=
    fun v hv => ⟨b, [], a, c, hsolve, hv⟩
  have hoptimal : a.verdict = .optimal → a.value ≠ none := (hvalued _ _ _ _ hsolve).2
  have hnone : ∀ {t : State K σ}, t.incumbent.best = none →
      ∀ v, t.incumbent.value? = some v → v ∈ task.backend.values := by
    intro t ht v hv
    rw [Incumbent.value?, ht] at hv
    cases hv
  have halone : ∀ {kind : NodeKind}, ∀ n ∈ [rootNode a kind], ∀ v, n.value = some v →
      v ∈ task.backend.values := by
    intro kind n hn
    rw [List.mem_singleton.1 hn]
    exact hvalue
  have hbranch : ∀ {kind : NodeKind}, (kind = .branch → a.value ≠ none) →
      ∀ n ∈ [rootNode a kind], n.kind = .branch → n.value ≠ none := by
    intro kind hkind n hn
    rw [List.mem_singleton.1 hn]
    exact hkind
  cases h with
  | infeasible _ =>
      exact ⟨hnone rfl, halone, hbranch (by simp), by simp [State.planted, State.initial]⟩
  | stalled _ =>
      exact ⟨hnone rfl, halone, hbranch (by simp), by simp [State.planted, State.initial]⟩
  | integral hverdict _ =>
      refine ⟨?_, halone, hbranch (by simp), by simp [State.planted, State.initial]⟩
      obtain ⟨w, hw⟩ := Option.ne_none_iff_exists'.1 (hoptimal hverdict)
      rw [hw]
      rintro v ⟨⟩
      exact hvalue w hw
  | fractional hverdict _ =>
      exact ⟨hnone rfl, halone, hbranch fun _ => hoptimal hverdict,
        by simp [State.planted, State.initial]⟩

omit [Scalar K] in
/-- Closing a node changes no value. -/
theorem close (h : Valued task s) (id : ℕ) : Valued task (close s id) := by
  have hold : ∀ m ∈ (Search.close s id).tree.nodes, ∃ n ∈ s.tree.nodes,
      m.value = n.value ∧ (m.kind = .branch → n.kind = .branch) := by
    intro m hm
    obtain ⟨i, hi⟩ := Tree.mem_nodes_iff.1 hm
    obtain ⟨n, hn, rfl⟩ := exists_of_node?_close hi
    refine ⟨n, Tree.mem_nodes_iff.2 ⟨i, hn⟩, rfl, fun hkind => ?_⟩
    by_cases hid : i = id
    · simp [hid] at hkind
    · simpa [hid] using hkind
  refine ⟨h.incumbent_mem, ?_, ?_, h.stalled_mem⟩
  · intro m hm v hv
    obtain ⟨n, hn, hvalue, -⟩ := hold m hm
    exact h.value_mem n hn v (hvalue ▸ hv)
  · intro m hm hkind
    obtain ⟨n, hn, hvalue, hbranch⟩ := hold m hm
    exact hvalue ▸ h.valued n hn (hbranch hkind)

/-- The values of a child that joins the tree come from the backend. -/
theorem joins [PlainText K] (hvalued : task.backend.IsValued) (h : Valued task s) {v : K}
    (hv : v ∈ task.backend.values) {b : Bound K} {a : Answer K} {s₁ : State K σ}
    (hjoins : Joins task p v b s s' n a s₁) : Valued task s' := by
  obtain ⟨-, hadds⟩ := hjoins.adds
  obtain ⟨⟨c, hsolve, hclassify⟩, hn, rfl⟩ := hjoins
  have hvalue : n.value = a.value := by rw [hn]; rfl
  have hanswer : ∀ w, a.value = some w → w ∈ task.backend.values :=
    fun w hw => ⟨_, _, a, c, hsolve, hw⟩
  have hnodes : ∀ m ∈ (s₁.join n v).tree.nodes, m ∈ s.tree.nodes ∨ m = n := by
    intro m hm
    rw [hadds.tree_eq, Tree.push, ← hadds.id_eq] at hm
    exact (List.mem_append.1 hm).imp_right List.mem_singleton.1
  refine ⟨?_, ?_, ?_, ?_⟩
  · intro w hw
    rcases hclassify.incumbent_value_cases hw with hw | hw
    · exact h.incumbent_mem w hw
    · exact hanswer w hw
  · intro m hm w hw
    rcases hnodes m hm with hm | rfl
    · exact h.value_mem m hm w hw
    · exact hanswer w (hvalue ▸ hw)
  · intro m hm hkind
    rcases hnodes m hm with hm | rfl
    · exact h.valued m hm hkind
    · exact hvalue ▸ (hvalued _ _ _ _ hsolve).2 (hclassify.learns.2 hkind).1
  · intro w hw
    rcases hclassify.stalledBound_cases hw with rfl | hw
    · exact hv
    · exact h.stalled_mem w hw

omit [Scalar K] in
/-- A branch has a value that comes from the backend. -/
theorem exists_value (h : Valued task s) {i : ℕ} (hn : s.tree.node? i = some n)
    (hkind : n.kind = .branch) : ∃ v, n.value = some v ∧ v ∈ task.backend.values := by
  have hmem := Tree.mem_nodes_iff.2 ⟨i, hn⟩
  obtain ⟨v, hv⟩ := Option.ne_none_iff_exists'.1 (h.valued n hmem hkind)
  exact ⟨v, hv, h.value_mem n hmem v hv⟩

/-- **After a visit all values come from the backend.** -/
theorem visit [PlainText K] (hvalued : task.backend.IsValued) (h : Valued task s) {e : Entry K}
    {rest : Frontier K} (hvisits : Visits task s e rest n s') : Valued task s' := by
  have hpopped : Valued task { s with frontier := rest, explored := s.explored + 1 } :=
    ⟨h.incumbent_mem, h.value_mem, h.valued, h.stalled_mem⟩
  obtain ⟨v, hv, hmem⟩ := h.exists_value hvisits.node hvisits.kind_eq
  have hprocesses := hvisits.processes
  cases hprocesses with
  | closed _ => exact hpopped.close e.id
  | kept _ _ => exact hpopped
  | split _ _ joinsLow joinsHigh =>
      rw [hv, Option.getD_some] at joinsLow joinsHigh
      exact (hpopped.joins hvalued hmem joinsLow).joins hvalued hmem joinsHigh

end Valued

/-! ## Nodes that were given up -/

omit [Scalar K] in
/-- The relaxation of the node was given up. -/
def Node.GaveUp (n : Node K) : Prop := n.status = .pivotLimit ∨ n.status = .unbounded

omit [Scalar K] in
/-- Below a node of value `v` a subtree was given up. -/
def StalledBelow (nodes : List (Node K)) (v : K) : Prop :=
  ∃ n ∈ nodes, n.GaveUp ∧ ∃ p ∈ nodes, n.parent = some p.id ∧ p.value = some v

omit [Scalar K] in
/-- Closing a node gives no subtree up. -/
theorem stalledBelow_close {id : ℕ} {v : K} :
    StalledBelow (close s id).tree.nodes v ↔ StalledBelow s.tree.nodes v := by
  have hold : ∀ {m : Node K}, m ∈ (close s id).tree.nodes → ∃ n ∈ s.tree.nodes, ∃ kind,
      m = { n with kind := kind } := by
    intro m hm
    obtain ⟨i, hi⟩ := Tree.mem_nodes_iff.1 hm
    obtain ⟨n, hn, rfl⟩ := exists_of_node?_close hi
    exact ⟨n, Tree.mem_nodes_iff.2 ⟨i, hn⟩, _, rfl⟩
  have hnew : ∀ {n : Node K}, n ∈ s.tree.nodes → ∃ kind,
      { n with kind := kind } ∈ (close s id).tree.nodes := by
    intro n hn
    obtain ⟨i, hi⟩ := Tree.mem_nodes_iff.1 hn
    exact ⟨_, Tree.mem_nodes_iff.2 ⟨i, node?_close_of_eq hi id⟩⟩
  constructor
  · rintro ⟨m, hm, hgave, q, hq, hparent, hvalue⟩
    obtain ⟨n, hn, _, rfl⟩ := hold hm
    obtain ⟨p, hp, _, rfl⟩ := hold hq
    exact ⟨n, hn, hgave, p, hp, hparent, hvalue⟩
  · rintro ⟨n, hn, hgave, p, hp, hparent, hvalue⟩
    obtain ⟨_, hm⟩ := hnew hn
    obtain ⟨_, hq⟩ := hnew hp
    exact ⟨_, hm, hgave, _, hq, hparent, hvalue⟩

/-- A child that joins the tree is the only new one that may have been given up. -/
theorem stalledBelow_adds (hwell : WellFormed task s) {id : ℕ} (hp : s.tree.node? id = some p)
    {v w : K} (hv : p.value = some v) {b : Bound K} (hchild : ChildOf task p b n)
    (hadds : Adds s s' n) :
    StalledBelow s'.tree.nodes w ↔ StalledBelow s.tree.nodes w ∨ n.GaveUp ∧ w = v := by
  have hnodes : s'.tree.nodes = s.tree.nodes ++ [n] := by
    rw [hadds.tree_eq, Tree.push, ← hadds.id_eq]
  have hmem : p ∈ s.tree.nodes := Tree.mem_nodes_iff.2 ⟨id, hp⟩
  have hpid : p.id = id := hwell.id_eq hp
  have hlt : p.id < n.id := by
    rw [hadds.id_eq, hpid]
    exact Tree.lt_size_of_node? hp
  rw [hnodes]
  constructor
  · rintro ⟨m, hm, hgave, q, hq, hparent, hvalue⟩
    rcases List.mem_append.1 hm with hm | hm
    · rcases List.mem_append.1 hq with hq | hq
      · exact .inl ⟨m, hm, hgave, q, hq, hparent, hvalue⟩
      · have hqid : q.id = s.tree.size := by
          rw [List.mem_singleton.1 hq]
          exact hadds.id_eq
        exact absurd hparent (hwell.isLeaf_of_size_le hqid.ge m hm)
    · obtain rfl := List.mem_singleton.1 hm
      have hqid : q.id = p.id := Option.some.inj (hparent.symm.trans hchild.parent_eq)
      rcases List.mem_append.1 hq with hq | hq
      · obtain ⟨j, hj⟩ := Tree.mem_nodes_iff.1 hq
        have hjid : j = id := by rw [← hwell.id_eq hj, hqid, hpid]
        obtain rfl := hjid
        obtain rfl := Option.some.inj (hp.symm.trans hj)
        exact .inr ⟨hgave, Option.some.inj (hvalue.symm.trans hv)⟩
      · obtain rfl := List.mem_singleton.1 hq
        omega
  · rintro (⟨m, hm, hgave, q, hq, hparent, hvalue⟩ | ⟨hgave, rfl⟩)
    · exact ⟨m, List.mem_append_left _ hm, hgave, q, List.mem_append_left _ hq, hparent, hvalue⟩
    · exact ⟨n, List.mem_append_right _ (List.mem_singleton.2 rfl), hgave, p,
        List.mem_append_left _ hmem, hchild.parent_eq, hv⟩

/-- The stalled bound is the best value of a node below which a subtree was given up. -/
structure Traced (task : Task K σ) (s : State K σ) : Prop where
  /-- The value of the incumbent comes from the backend. -/
  incumbent_mem : ∀ v, s.incumbent.value? = some v → v ∈ task.backend.values
  /-- The value of a node comes from the backend. -/
  value_mem : ∀ n ∈ s.tree.nodes, ∀ v, n.value = some v → v ∈ task.backend.values
  /-- A branch has a value. -/
  valued : ∀ n ∈ s.tree.nodes, n.kind = .branch → n.value ≠ none
  /-- Below a node of that value a subtree was given up. -/
  attained : ∀ b, s.stalledBound = some b → StalledBelow s.tree.nodes b
  /-- No node below which a subtree was given up is better. -/
  best : ∀ v, StalledBelow s.tree.nodes v →
    ∃ b, s.stalledBound = some b ∧ task.sense.improves v b = false

/-- The stalled bound after a stall is not worse than the one before nor than the value of the
parent. -/
theorem stalledBound_noteStall_best {S : Set K} (hS : Scalar.OrderedOn S) (sense : Sense) {v : K}
    (hv : v ∈ S) (hbound : ∀ b, s.stalledBound = some b → b ∈ S) :
    ∃ b, (noteStall sense s v).stalledBound = some b ∧ sense.improves v b = false ∧
      ∀ c w, s.stalledBound = some c → w ∈ S → sense.improves w c = false →
        sense.improves w b = false := by
  cases hb : s.stalledBound with
  | none => exact ⟨v, by rw [noteStall, hb], hS.improves_self sense hv, by simp⟩
  | some c =>
      have hc := hbound c hb
      have hnew : (noteStall sense s v).stalledBound =
          some (if sense.improves v c then v else c) := by
        rw [noteStall, hb]
      by_cases himproves : sense.improves v c = true
      · refine ⟨v, by rw [hnew, if_pos himproves], hS.improves_self sense hv, ?_⟩
        rintro _ w ⟨⟩ hw hwc
        exact hS.not_improves_trans sense hw hc hv hwc (hS.improves_asymm sense hv hc himproves)
      · refine ⟨c, by rw [hnew, if_neg himproves], Bool.eq_false_iff.2 himproves, ?_⟩
        rintro _ w ⟨⟩ _ hwc
        exact hwc

/-- A child with a consistent answer was given up exactly if it stalled. -/
theorem Classifies.gaveUp_iff {v : K} {a : Answer K} {kind : NodeKind} (ha : a.IsConsistent)
    (h : Classifies task s v a kind s') :
    ((a.status = .pivotLimit ∨ a.status = .unbounded) ∧ s' = noteStall task.sense s v) ∨
      (¬ (a.status = .pivotLimit ∨ a.status = .unbounded) ∧
        s'.stalledBound = s.stalledBound) := by
  have hverdict := ha.verdict_eq
  have hoptimal : a.verdict = .optimal → ¬ (a.status = .pivotLimit ∨ a.status = .unbounded) := by
    rintro hopt (hstatus | hstatus) <;> rw [hverdict, hstatus] at hopt <;> cases hopt
  cases h with
  | infeasible hinfeasible =>
      refine .inr ⟨?_, rfl⟩
      rintro (hstatus | hstatus) <;> rw [hverdict, hstatus] at hinfeasible <;> cases hinfeasible
  | integer hopt _ _ => exact .inr ⟨hoptimal hopt, rfl⟩
  | branch hopt _ _ _ => exact .inr ⟨hoptimal hopt, rfl⟩
  | pruned hopt _ _ _ => exact .inr ⟨hoptimal hopt, rfl⟩
  | stalled hfeasible hvalueless =>
      refine .inl ⟨?_, rfl⟩
      have hnopt : a.verdict ≠ .optimal := fun hopt => ha.value_iff.2 hopt (hvalueless hopt)
      rw [hverdict] at hfeasible hnopt
      cases hstatus : a.status with
      | optimal => exact absurd (by rw [hstatus]; rfl) hnopt
      | infeasible => exact absurd (by rw [hstatus]; rfl) hfeasible
      | unbounded => exact .inr rfl
      | pivotLimit => exact .inl rfl

namespace Traced

/-- Where the stalled bound is traced all values come from the backend. -/
theorem toValued (h : Traced task s) : Valued task s where
  incumbent_mem := h.incumbent_mem
  value_mem := h.value_mem
  valued := h.valued
  stalled_mem v hv := by
    obtain ⟨_, -, -, q, hq, -, hqv⟩ := h.attained v hv
    exact h.value_mem q hq v hqv

variable (hconsistent : task.backend.IsConsistent) (hordered : Scalar.OrderedOn task.backend.values)
include hconsistent

/-- At the root nothing was given up. -/
theorem root {b c : σ} {a : Answer K} {st : Start}
    (hsolve : (task.backend.solve b []).outcome = .ok (a, c)) (h : Plants task c a s st) :
    Traced task s := by
  have hvalued := Valued.root hconsistent.isValued hsolve h
  have hbelow : ∀ {kind : NodeKind} {v : K}, ¬ StalledBelow [rootNode a kind] v := by
    rintro kind v ⟨n, hn, -, p, -, hparent, -⟩
    rw [List.mem_singleton.1 hn] at hparent
    cases hparent
  obtain ⟨kind, hnodes, hnone⟩ :
      ∃ kind, s.tree.nodes = [rootNode a kind] ∧ s.stalledBound = none := by
    cases h <;> exact ⟨_, rfl, rfl⟩
  refine ⟨hvalued.incumbent_mem, hvalued.value_mem, hvalued.valued, ?_, ?_⟩
  · simp [hnone]
  · intro v hv
    rw [hnodes] at hv
    exact absurd hv hbelow

omit hconsistent in
/-- Closing a node keeps the stalled bound traced. -/
theorem close (h : Traced task s) (id : ℕ) : Traced task (close s id) := by
  have hvalued := h.toValued.close id
  exact ⟨hvalued.incumbent_mem, hvalued.value_mem, hvalued.valued,
    fun b hb => stalledBelow_close.2 (h.attained b hb),
    fun v hv => h.best v (stalledBelow_close.1 hv)⟩

include hordered

/-- **A child that joins the tree keeps the stalled bound traced.** -/
theorem joins [PlainText K] (h : Traced task s) (hwell : WellFormed task s) {id : ℕ} {v : K}
    {b : Bound K} {a : Answer K} {s₁ : State K σ} (hp : s.tree.node? id = some p)
    (hv : p.value = some v) (hjoins : Joins task p v b s s' n a s₁) : Traced task s' := by
  have hmem : v ∈ task.backend.values := h.value_mem p (Tree.mem_nodes_iff.2 ⟨id, hp⟩) v hv
  have hvalued := h.toValued.joins hconsistent.isValued hmem hjoins
  obtain ⟨hchild, hadds⟩ := hjoins.adds
  obtain ⟨⟨c, hsolve, hclassify⟩, hn, rfl⟩ := hjoins
  have ha := hconsistent _ _ _ _ hsolve
  have hstatus : n.status = a.status := by rw [hn]; rfl
  have hbelow := fun w => stalledBelow_adds (w := w) hwell hp hv hchild hadds
  refine ⟨hvalued.incumbent_mem, hvalued.value_mem, hvalued.valued, ?_, ?_⟩
  · intro w hw
    have hw : s₁.stalledBound = some w := hw
    rw [hbelow]
    obtain ⟨hgave, heq⟩ | ⟨-, heq⟩ := hclassify.gaveUp_iff ha
    · rw [heq] at hw
      rcases stalledBound_noteStall_cases hw with rfl | hold
      · exact .inr ⟨by rwa [Node.GaveUp, hstatus], rfl⟩
      · exact .inl (h.attained w hold)
    · exact .inl (h.attained w (heq.symm.trans hw))
  · intro w hw
    show ∃ b, s₁.stalledBound = some b ∧ task.sense.improves w b = false
    rw [hbelow] at hw
    obtain ⟨hgave, heq⟩ | ⟨hnot, heq⟩ := hclassify.gaveUp_iff ha
    · obtain ⟨d, hd, hself, hkeeps⟩ := stalledBound_noteStall_best
        (s := { s with backend := c }) hordered task.sense hmem h.toValued.stalled_mem
      refine ⟨d, heq ▸ hd, ?_⟩
      rcases hw with hw | ⟨-, rfl⟩
      · obtain ⟨e, he, hwe⟩ := h.best w hw
        obtain ⟨_, -, -, q, hq, -, hqv⟩ := hw
        exact hkeeps e w he (h.value_mem q hq w hqv) hwe
      · exact hself
    · rcases hw with hw | ⟨hgave, -⟩
      · obtain ⟨e, he, hwe⟩ := h.best w hw
        exact ⟨e, heq.trans he, hwe⟩
      · rw [Node.GaveUp, hstatus] at hgave
        exact absurd hgave hnot

/-- **A visit keeps the stalled bound traced.** -/
theorem visit [PlainText K] (h : Traced task s) (hwell : WellFormed task s) {e : Entry K}
    {rest : Frontier K} (hvisits : Visits task s e rest n s') : Traced task s' := by
  have hpopped : Traced task { s with frontier := rest, explored := s.explored + 1 } :=
    ⟨h.incumbent_mem, h.value_mem, h.valued, h.attained, h.best⟩
  obtain ⟨v, hv, -⟩ := h.toValued.exists_value hvisits.node hvisits.kind_eq
  obtain ⟨hwell', -⟩ := hwell.pop (s.explored + 1) hvisits.entries
  have hprocesses := hvisits.processes
  cases hprocesses with
  | closed _ => exact hpopped.close e.id
  | kept _ _ => exact hpopped
  | split _ hsplit joinsLow joinsHigh =>
      rw [hv, Option.getD_some] at joinsLow joinsHigh
      obtain ⟨childLow, addsLow⟩ := joinsLow.adds
      have hfrac := hwell.fractional hvisits.node hvisits.kind_eq
      obtain ⟨hwell₁, hnode₁, -⟩ := hwell'.adds hvisits.node hvisits.notOpen hfrac hsplit (.inl rfl)
        childLow addsLow
      have hlow := hpopped.joins hconsistent hordered hwell' hvisits.node hv joinsLow
      exact hlow.joins hconsistent hordered hwell₁ hnode₁ hv joinsHigh

end Traced

end Search

end BranchBound
