import BranchBound.Proofs.Search.TreeShape

/-!
# The dialogue with the backend

Whatever the backend is, the events of a search hold its questions to the backend and the answers,
in order (`exchanges`).  A question is asked for each node that is made, with the node's own bounds,
and nothing else is asked: closing a node, classifying one and snapshots are silent.

So the tree is a faithful record of the dialogue at every moment (`Faithful`): its nodes, in order
of creation, have the bounds that were asked for and hold what was answered, and the state of the
backend is the one that these questions lead to.  Nodes are closed later, but what they record of
their relaxations stays.  Where a search ends this is what it returns (`tree_records_dialogue`).
The simplex method answers from scratch, so there a node can be relaxed again on its own.
-/

namespace BranchBound

variable {K : Type} [Scalar K] {σ : Type}

namespace Relaxation

omit [Scalar K] in
/-- Asked for relaxations under these bounds, one after the other from the state `b` on, the backend
gives these answers and is left in another state. -/
inductive Backend.Gives (backend : Backend K σ) (b : σ) :
    List (List (Bound K)) → List (Answer K) → σ → Prop where
  /-- Nothing was asked. -/
  | nothing : Gives backend b [] [] b
  /-- One more question is answered. -/
  | next {asked : List (List (Bound K))} {given : List (Answer K)} {c d : σ}
      {bounds : List (Bound K)} {a : Answer K} (h : Gives backend b asked given c)
      (hsolve : (backend.solve c bounds).outcome = .ok (a, d)) :
      Gives backend b (asked ++ [bounds]) (given ++ [a]) d

omit [Scalar K] in
/-- Each question has its answer, from some state of the backend. -/
theorem Backend.Gives.answer {backend : Backend K σ} {b c : σ} {asked : List (List (Bound K))}
    {given : List (Answer K)} (h : backend.Gives b asked given c) :
    List.Forall₂ (fun bounds a => ∃ c d, (backend.solve c bounds).outcome = .ok (a, d)) asked
      given := by
  induction h with
  | nothing => exact .nil
  | next _ hsolve ih => exact List.rel_append ih (.cons ⟨_, _, hsolve⟩ .nil)

/-- The simplex method answers from scratch, whatever it was asked before. -/
theorem solve_simplexBackend_iff {settings : LinearProgram.Settings K} {p : LinearProgram K}
    {c d : ℕ} {bounds : List (Bound K)} {a : Answer K} :
    ((simplexBackend settings p).solve c bounds).outcome = .ok (a, d) ↔
      (solveBounded settings p bounds).outcome = .ok a ∧ d = c + 1 := by
  simp only [simplexBackend, Recorded.outcome_bind_eq_ok, Recorded.outcome_pure, Except.ok.injEq,
    Prod.mk.injEq]
  constructor
  · rintro ⟨a', ha, rfl, rfl⟩
    exact ⟨ha, rfl⟩
  · rintro ⟨ha, rfl⟩
    exact ⟨a, ha, rfl, rfl⟩

omit [Scalar K] in
/-- What of an answer is kept: the status of the linear solve, the point and its value. -/
def Answer.record (a : Answer K) : LinearProgram.Status × List K × Option K :=
  (a.status, a.x, a.value)

end Relaxation

/-- A sound program is solved by its search, and a program with a defect is not. -/
theorem IntegerProgram.solve_eq_ok_iff [PlainText K] {p : IntegerProgram K}
    {settings : Search.Settings K} {clock : Search.Clock} {solution : Search.Solution K} :
    (p.solve settings clock).outcome = .ok solution ↔
      p.check = .ok () ∧ (Search.solve (p.task settings clock) 0).outcome = .ok solution := by
  rw [IntegerProgram.solve]
  cases p.check <;> simp [Recorded.stop]

namespace Search

open Relaxation

omit [Scalar K] in
/-- What a node records of the answer of its relaxation. -/
def Node.record (n : Node K) : LinearProgram.Status × List K × Option K := (n.status, n.x, n.value)

variable {task : Task K σ} {s s' : State K σ} {b : σ}

/-! ## Questions and answers among the events -/

omit [Scalar K] in
/-- The event is a question to the backend or an answer of it. -/
def Event.isExchange : Event K → Bool
  | .relaxing _ | .relaxed _ => true
  | _ => false

omit [Scalar K] in
/-- The questions to the backend and its answers, in order. -/
def exchanges (events : List (Event K)) : List (Event K) := events.filter Event.isExchange

omit [Scalar K] in
@[simp] theorem exchanges_append (es es' : List (Event K)) :
    exchanges (es ++ es') = exchanges es ++ exchanges es' := List.filter_append ..

omit [Scalar K] in
/-- What the backend reports is no part of the dialogue. -/
@[simp] theorem exchanges_linear (es : List (Simplex.Event K)) :
    exchanges (es.map Event.linear) = [] := by
  simp [exchanges, Event.isExchange]

omit [Scalar K] in
/-- The questions are among the exchanges. -/
theorem relaxations_exchanges (es : List (Event K)) :
    relaxations (exchanges es) = relaxations es := by
  rw [exchanges, relaxations, relaxations, List.filterMap_filter]
  congr 1
  funext e
  cases e <;> rfl

omit [Scalar K] in
/-- The answers are among the exchanges. -/
theorem answers_exchanges (es : List (Event K)) : answers (exchanges es) = answers es := by
  rw [exchanges, answers, answers, List.filterMap_filter]
  congr 1
  funext e
  cases e <;> rfl

/-! ## What each step asks -/

omit [Scalar K] in
/-- Relaxing is one question and its answer. -/
theorem exchanges_relax {bounds : List (Bound K)} {a : Answer K}
    (h : (relax task s bounds).outcome = .ok (a, s')) :
    exchanges (relax task s bounds).events = [.relaxing bounds, .relaxed a] := by
  obtain ⟨c, hsolve, -⟩ := relax_eq_ok_iff.1 h
  have hlinear : ((task.backend.solve s.backend bounds).mapEvents Event.linear).outcome =
      .ok (a, c) := hsolve
  rw [relax, Recorded.report_eq, Recorded.bind_ok, Recorded.events_bind_ok hlinear]
  simp only [exchanges_append, Recorded.events_mapEvents, exchanges_linear]
  rfl

/-- Classifying asks nothing. -/
theorem exchanges_classify (task : Task K σ) (s : State K σ) (id : ℕ) (v : K) (a : Answer K) :
    exchanges (classify task s id v a).events = [] := by
  unfold classify
  split
  · rfl
  · split
    · split <;> rfl
    · split <;> rfl
  · rfl

/-- Adding a child asks for the relaxation under the child's bounds. -/
theorem exchanges_addChild [PlainText K] {p : Node K} {v : K} {bound : Bound K}
    (h : (addChild task p v s bound).outcome = .ok s') :
    ∃ n a s₁, Joins task p v bound s s' n a s₁ ∧
      exchanges (addChild task p v s bound).events = [.relaxing n.bounds, .relaxed a] := by
  obtain ⟨n, a, s₁, hjoins⟩ := addChild_joins h
  refine ⟨n, a, s₁, hjoins, ?_⟩
  obtain ⟨c, hsolve, -⟩ := hjoins.answered
  have hbounds : n.bounds = p.bounds ++ [bound] := by rw [hjoins.node_eq]; rfl
  simp only [addChild, Recorded.outcome_bind_eq_ok] at h
  obtain ⟨⟨a', s₀⟩, hrelax, ⟨kind, s₂⟩, hclassify, -⟩ := h
  obtain ⟨c', hsolve', -⟩ := relax_eq_ok_iff.1 hrelax
  obtain ⟨rfl, -⟩ := Prod.mk.inj (Except.ok.inj (hsolve'.symm.trans hsolve))
  rw [addChild, Recorded.events_bind_ok hrelax, Recorded.events_bind_ok hclassify,
    exchanges_append, exchanges_append, exchanges_relax hrelax, exchanges_classify, hbounds]
  simp only
  split <;> rfl

/-- Settling the root asks nothing. -/
theorem exchanges_settleRoot (task : Task K σ) (s : State K σ) (a : Answer K) :
    exchanges (settleRoot task s a).events = [] := by
  unfold settleRoot
  split
  · rfl
  · rfl
  · rfl
  · split <;> rfl

/-- The root is asked for without bounds, whatever becomes of it. -/
theorem exchanges_start {a : Answer K} {c : σ}
    (hsolve : (task.backend.solve b []).outcome = .ok (a, c)) :
    exchanges (start task b).events = [.relaxing [], .relaxed a] := by
  have hrelax : (relax task (State.initial task.sense b) []).outcome =
      .ok (a, { State.initial task.sense b with backend := c }) :=
    relax_eq_ok_iff.2 ⟨c, hsolve, rfl⟩
  rw [start, plantRoot, Recorded.report_eq, Recorded.bind_ok, Recorded.events_bind_ok hrelax,
    exchanges_append, exchanges_append, exchanges_relax hrelax, exchanges_settleRoot]
  rfl

/-- Snapshots ask nothing. -/
theorem exchanges_snapshot (task : Task K σ) (s : State K σ) :
    exchanges (snapshot task s).events = [] := by
  unfold snapshot
  split <;> rfl

/-! ## The tree as a record -/

/-- Classifying leaves the backend alone. -/
theorem Classifies.backend_eq {v : K} {a : Answer K} {kind : NodeKind}
    (h : Classifies task s v a kind s') : s'.backend = s.backend := by
  cases h <;> rfl

omit [Scalar K] in
/-- The nodes, in order of creation, have the bounds asked for and record the answers, and the
backend is where these questions lead. -/
structure Faithful (task : Task K σ) (b : σ) (events : List (Event K)) (s : State K σ) :
    Prop where
  asked : relaxations events = s.tree.nodes.map Node.bounds
  answered : (answers events).map Answer.record = s.tree.nodes.map Node.record
  given : task.backend.Gives b (relaxations events) (answers events) s.backend

/-- The run keeps the record: with its events after `es`, the state of its result is faithful. -/
def Keeps {α : Type} (task : Task K σ) (b : σ) (es : List (Event K)) (r : Run K α)
    (state : α → State K σ) : Prop :=
  ∀ r', r.outcome = .ok r' → Faithful task b (es ++ r.events) (state r')

omit [Scalar K] in
/-- A run that keeps the record may go on with one that keeps it. -/
theorem Keeps.bind {α β : Type} {es : List (Event K)} {r : Run K α} {f : α → Run K β}
    {state : α → State K σ} {state' : β → State K σ} (h : Keeps task b es r state)
    (hf : ∀ a, Faithful task b (es ++ r.events) (state a) →
      Keeps task b (es ++ r.events) (f a) state') : Keeps task b es (r >>= f) state' := by
  intro c hc
  obtain ⟨a, ha, hc⟩ := Recorded.outcome_bind_eq_ok.1 hc
  rw [Recorded.events_bind_ok ha, ← List.append_assoc]
  exact hf a (h a ha) c hc

namespace Faithful

variable {es es' : List (Event K)}

omit [Scalar K] in
/-- Silence changes nothing. -/
theorem quiet (h : Faithful task b es s) (hes : exchanges es' = [])
    (hbounds : s'.tree.nodes.map Node.bounds = s.tree.nodes.map Node.bounds)
    (hrecord : s'.tree.nodes.map Node.record = s.tree.nodes.map Node.record)
    (hbackend : s'.backend = s.backend) : Faithful task b (es ++ es') s' := by
  have hasked : relaxations (es ++ es') = relaxations es := by
    rw [← relaxations_exchanges, exchanges_append, hes, List.append_nil, relaxations_exchanges]
  have hanswered : answers (es ++ es') = answers es := by
    rw [← answers_exchanges, exchanges_append, hes, List.append_nil, answers_exchanges]
  refine ⟨?_, ?_, ?_⟩
  · rw [hasked, hbounds, h.asked]
  · rw [hanswered, hrecord, h.answered]
  · rw [hasked, hanswered, hbackend]
    exact h.given

omit [Scalar K] in
/-- A result that is there keeps the record. -/
theorem pure {α : Type} {state : α → State K σ} {r : α} (h : Faithful task b es (state r)) :
    Keeps task b es (Pure.pure r) state := by
  intro r' hr'
  obtain rfl : r = r' := by simpa using hr'
  exact h.quiet rfl rfl rfl rfl

omit [Scalar K] in
/-- Reporting something else than an exchange keeps the record. -/
theorem report (h : Faithful task b es s) {e : Event K} (he : exchanges [e] = []) :
    Keeps task b es (Recorded.report e) fun _ => s :=
  fun _ _ => h.quiet he rfl rfl rfl

/-- Snapshots keep the record. -/
theorem snapshot (h : Faithful task b es s) : Keeps task b es (snapshot task s) fun _ => s :=
  fun _ _ => h.quiet (exchanges_snapshot task s) rfl rfl rfl

omit [Scalar K] in
/-- **A question whose answer becomes the next node keeps the record.** -/
theorem exchange (h : Faithful task b es s) {n : Node K} {a : Answer K} {c : σ}
    (hes : exchanges es' = [.relaxing n.bounds, .relaxed a]) (hrecord : n.record = a.record)
    (hsolve : (task.backend.solve s.backend n.bounds).outcome = .ok (a, c))
    (htree : s'.tree.nodes = s.tree.nodes ++ [n]) (hbackend : s'.backend = c) :
    Faithful task b (es ++ es') s' := by
  have hasked : relaxations (es ++ es') = relaxations es ++ [n.bounds] := by
    rw [relaxations, List.filterMap_append]
    congr 1
    show relaxations es' = _
    rw [← relaxations_exchanges, hes]
    rfl
  have hanswered : answers (es ++ es') = answers es ++ [a] := by
    rw [answers, List.filterMap_append]
    congr 1
    show answers es' = _
    rw [← answers_exchanges, hes]
    rfl
  refine ⟨?_, ?_, ?_⟩
  · rw [hasked, htree, List.map_append, h.asked]
    rfl
  · rw [hanswered, htree, List.map_append, List.map_append, h.answered, List.map_singleton,
      List.map_singleton, hrecord]
  · rw [hasked, hanswered, hbackend]
    exact h.given.next hsolve

omit [Scalar K] in
/-- Nothing was asked before the search starts. -/
theorem initial (task : Task K σ) (b : σ) :
    Faithful task b [] (State.initial task.sense b) := ⟨rfl, rfl, .nothing⟩

omit [Scalar K] in
/-- Closing a node leaves its record as it is. -/
theorem close (h : Faithful task b es s) (id : ℕ) : Faithful task b es (close s id) := by
  have hmap : ∀ {α : Type} (f : Node K → α), (∀ n k, f { n with kind := k } = f n) →
      (Search.close s id).tree.nodes.map f = s.tree.nodes.map f := by
    intro α f hf
    refine List.ext_getElem? fun i => ?_
    have hnode : (Search.close s id).tree.nodes[i]? = _ := node?_close s id i
    rw [List.getElem?_map, List.getElem?_map, hnode, Option.map_map]
    exact congrArg (Option.map · _) (funext fun n => hf n _)
  exact ⟨h.asked.trans (hmap Node.bounds fun _ _ => rfl).symm,
    h.answered.trans (hmap Node.record fun _ _ => rfl).symm, h.given⟩

/-- The root is the first node, with the first answer. -/
theorem start (task : Task K σ) (b : σ) : Keeps task b [] (start task b) Prod.fst := by
  intro r hr
  obtain ⟨s, st⟩ := r
  obtain ⟨a, c, hsolve, hplants⟩ := start_plants hr
  have hes := exchanges_start hsolve
  obtain ⟨kind, hnodes, hbackend⟩ : ∃ kind, s.tree.nodes = [rootNode a kind] ∧ s.backend = c := by
    cases hplants <;> exact ⟨_, rfl, rfl⟩
  exact (initial task b).exchange (n := rootNode a kind) hes rfl hsolve hnodes hbackend

variable [PlainText K]

/-- A child becomes the next node. -/
theorem addChild (h : Faithful task b es s) (p : Node K) (v : K) (bound : Bound K) :
    Keeps task b es (addChild task p v s bound) id := by
  intro s' hs'
  obtain ⟨n, a, s₁, hjoins, hes⟩ := exchanges_addChild hs'
  obtain ⟨hchild, -, hnodes⟩ := hjoins.isChild
  obtain ⟨c, hsolve, hclassify⟩ := hjoins.answered
  refine h.exchange hes ?_ (hchild.bounds_eq ▸ hsolve) hnodes ?_
  · rw [hjoins.node_eq]
    rfl
  · rw [id, hjoins.state_eq]
    exact hclassify.backend_eq

/-- **Processing a node keeps the record.** -/
theorem explore (h : Faithful task b es s) (id : ℕ) :
    Keeps task b es (explore task s id) fun s' => s' := by
  cases hn : s.tree.node? id with
  | none =>
      intro s' hs'
      rw [Search.explore, Tree.node, hn] at hs'
      cases hs'
  | some n =>
      rw [Search.explore, Tree.node, hn]
      simp only [Except.mapError, Recorded.ofExcept_ok, Recorded.bind_ok, List.nil_append]
      split
      · exact Keeps.bind (h.report (by rfl)) fun _ h => Faithful.pure (h.close id)
      · split
        · exact Keeps.bind (h.report (by rfl)) fun _ h => h.pure
        · exact Keeps.bind (h.report (by rfl)) fun _ h =>
            (h.addChild n _ _).bind fun _ h => h.addChild n _ _

/-- **A visit keeps the record.** -/
theorem visit (h : Faithful task b es s) (id : ℕ) (frontier : Frontier K) :
    Keeps task b es (visit task s id frontier) fun s' => s' := by
  have hpopped : Faithful task b es { s with frontier := frontier, explored := s.explored + 1 } :=
    ⟨h.asked, h.answered, h.given⟩
  refine (hpopped.explore id).bind fun s₁ h₁ => ?_
  exact h₁.snapshot.bind fun _ h => h.pure

/-- **However many nodes are visited, the record is kept.** -/
theorem grow (budget : ℕ) (h : Faithful task b es s) :
    Keeps task b es (grow task budget s) Prod.fst := by
  induction budget generalizing es s with
  | zero =>
      rw [Search.grow]
      split
      · exact h.pure
      · exact h.pure
  | succ budget ih =>
      rw [Search.grow]
      split
      · exact h.pure
      · simp only
        split
        · exact h.pure
        · exact (h.visit _ _).bind fun _ h => ih h

/-- **A whole search keeps the record.** -/
theorem run (task : Task K σ) (b : σ) : Keeps task b [] (run task b) Prod.fst := by
  refine (Faithful.start task b).bind fun r h => ?_
  obtain ⟨s, st⟩ := r
  cases st with
  | settled => exact h.pure (r := (s, none))
  | growing => exact h.grow _

omit [Scalar K] [PlainText K] in
/-- Each node records an answer to its own bounds. -/
theorem exists_answer (h : Faithful task b es s) {n : Node K} (hn : n ∈ s.tree.nodes) :
    ∃ c a d, (task.backend.solve c n.bounds).outcome = .ok (a, d) ∧ a.record = n.record := by
  obtain ⟨i, hi⟩ := List.mem_iff_getElem?.1 hn
  have hasked : (relaxations es)[i]? = some n.bounds := by
    rw [h.asked, List.getElem?_map, hi, Option.map_some]
  have hanswered : ((answers es).map Answer.record)[i]? = some n.record := by
    rw [h.answered, List.getElem?_map, hi, Option.map_some]
  rw [List.getElem?_map, Option.map_eq_some_iff] at hanswered
  obtain ⟨a, ha, hrecord⟩ := hanswered
  obtain ⟨hlt, hasked⟩ := List.getElem?_eq_some_iff.1 hasked
  obtain ⟨hlt', ha⟩ := List.getElem?_eq_some_iff.1 ha
  obtain ⟨c, d, hsolve⟩ := h.given.answer.get hlt hlt'
  rw [List.get_eq_getElem, List.get_eq_getElem, hasked, ha] at hsolve
  exact ⟨c, a, d, hsolve, hrecord⟩

end Faithful

/-- **Where a search ends the tree that it returns is a faithful record.** -/
theorem solve_faithful [PlainText K] {solution : Solution K}
    (h : (solve task b).outcome = .ok solution) :
    ∃ s limit, (run task b).outcome = .ok (s, limit) ∧ solution = finish task s limit ∧
      Faithful task b (solve task b).events s := by
  obtain ⟨s, limit, hrun, rfl⟩ := solve_eq_ok_iff.1 h
  refine ⟨s, limit, hrun, rfl, ?_⟩
  rw [solve, Recorded.events_bind_ok hrun]
  exact (Faithful.run task b _ hrun).quiet rfl rfl rfl rfl

/-- **Nodes are faithful records of the relaxations that were solved.**  The first part is about
every backend: the bounds it is asked for are those of the nodes, in order, its answers are what the
nodes record, and its state in the end is the one that answering them leads to.  The second is about
the simplex method: a new backend that is only asked for the bounds of one of the nodes answers as
that node records. -/
theorem tree_records_dialogue [PlainText K] :
    (∀ {σ : Type} (task : Task K σ) (b : σ) {solution : Solution K},
      (solve task b).outcome = .ok solution →
        relaxations (solve task b).events = solution.tree.map Node.bounds ∧
        (answers (solve task b).events).map Answer.record = solution.tree.map Node.record ∧
        ∃ s limit, (run task b).outcome = .ok (s, limit) ∧ solution = finish task s limit ∧
          task.backend.Gives b (relaxations (solve task b).events)
            (answers (solve task b).events) s.backend) ∧
    ∀ (p : IntegerProgram K) (settings : Settings K) (clock : Clock) {solution : Solution K},
      (p.solve settings clock).outcome = .ok solution → ∀ n ∈ solution.tree,
        ∃ a, ((simplexBackend settings.linear p.relaxation).solve 0 n.bounds).outcome =
          .ok (a, 1) ∧ a.record = n.record := by
  refine ⟨fun task b solution h => ?_, fun p settings clock solution h n hn => ?_⟩
  · obtain ⟨s, limit, hrun, rfl, hfaithful⟩ := solve_faithful h
    exact ⟨hfaithful.asked, hfaithful.answered, s, limit, hrun, rfl, hfaithful.given⟩
  · obtain ⟨s, limit, -, rfl, hfaithful⟩ := solve_faithful (IntegerProgram.solve_eq_ok_iff.1 h).2
    obtain ⟨c, a, d, hsolve, hrecord⟩ := hfaithful.exists_answer hn
    exact ⟨a, solve_simplexBackend_iff.2 ⟨(solve_simplexBackend_iff.1 hsolve).1, rfl⟩, hrecord⟩

/-- The tree of `halves` has five nodes, so five relaxations were solved for it, and its third node
can be relaxed again alone. -/
theorem halves_tree_records_dialogue :
    ∃ solution, (halves.solve halvesSettings fun _ => 0).outcome = .ok solution ∧
      solution.tree.length = 5 ∧
      (relaxations (solve (halves.task halvesSettings fun _ => 0) 0).events).length = 5 ∧
      ∀ n ∈ solution.tree,
        ∃ a, ((simplexBackend halvesSettings.linear halves.relaxation).solve 0 n.bounds).outcome =
          .ok (a, 1) ∧ a.record = n.record := by
  have heval : (halves.solve halvesSettings fun _ => 0).outcome.map
      (fun solution => solution.tree.length) = .ok 5 := by
    decide +kernel
  obtain ⟨solution, hout, hlength⟩ := exists_of_map_eq_ok heval
  obtain ⟨hdialogue, hagain⟩ := tree_records_dialogue (K := ℚ)
  obtain ⟨hasked, -⟩ := hdialogue _ 0 (IntegerProgram.solve_eq_ok_iff.1 hout).2
  refine ⟨solution, hout, hlength, ?_, hagain halves halvesSettings (fun _ => 0) hout⟩
  rw [hasked, List.length_map, hlength]

end Search

end BranchBound
