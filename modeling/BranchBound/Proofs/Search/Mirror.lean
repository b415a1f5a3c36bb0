import BranchBound.Proofs.Search.Validity
import BranchBound.Proofs.Simplex.Mirror

/-!
# Maximizing mirrors minimizing

The search of a mirrored program is the mirror image of the search of the program: every value has
the other sign, and nothing else differs (`IntegerProgram.solve_mirrored`).

Each thing the search works with has a mirror image, and each step of the search takes mirror images
to mirror images.  `Mirrors` says so of two runs; it is closed under doing one thing after the other
(`Mirrors.bind`), so the steps are treated one by one, in the order in which the search is built up
from them.
-/

namespace BranchBound

variable {K : Type} [ExactScalar K] {σ : Type}

/-- The integer program with the negated objective and the other direction. -/
def IntegerProgram.mirror (p : IntegerProgram K) : IntegerProgram K := ⟨p.relaxation.mirror⟩

namespace Search

open Relaxation

/-! ## Mirror images -/

/-- The same node with the negated value. -/
def Node.mirror (n : Node K) : Node K := { n with value := n.value.map fun v => -v }

/-- The same tree with negated values. -/
def Tree.mirror (t : Tree K) : Tree K := ⟨t.nodes.map Node.mirror⟩

/-- The same open node with the negated value. -/
def Entry.mirror (e : Entry K) : Entry K := { e with value := -e.value }

/-- The same open nodes with negated values, in the other direction. -/
def Frontier.mirror (f : Frontier K) : Frontier K :=
  { f with sense := f.sense.flip, entries := f.entries.map Entry.mirror }

/-- The same point with the negated value, in the other direction. -/
def Incumbent.mirror (i : Incumbent K) : Incumbent K :=
  { i with sense := i.sense.flip, best := i.best.map fun b => (b.1, -b.2) }

/-- The same state with negated values, in the other direction. -/
def State.mirror (s : State K σ) : State K σ :=
  { s with
    tree := s.tree.mirror
    frontier := s.frontier.mirror
    incumbent := s.incumbent.mirror
    rootValue := s.rootValue.map fun v => -v
    stalledBound := s.stalledBound.map fun v => -v }

/-- The same snapshot with the negated value. -/
def Progress.mirror (r : Progress K) : Progress K := { r with best := r.best.map fun v => -v }

/-- The same result with negated values. -/
def Solution.mirror (s : Solution K) : Solution K :=
  { s with
    value := s.value.map fun v => -v
    rootValue := s.rootValue.map fun v => -v
    tree := s.tree.map Node.mirror }

/-! ## The incumbent -/

namespace Incumbent

variable (i : Incumbent K)

theorem value?_mirror : i.mirror.value? = i.value?.map fun v => -v := by
  rw [value?, value?, mirror, Option.map_map, Option.map_map]
  rfl

theorem point?_mirror : i.mirror.point? = i.point? := by
  rw [point?, point?, mirror, Option.map_map]
  rfl

theorem hasSolution_mirror : i.mirror.hasSolution = i.hasSolution := by
  rw [hasSolution, hasSolution, mirror, Option.isSome_map]

/-- **A value improves on the incumbent if its mirror image improves on the mirror image.** -/
theorem canImprove_mirror (v : K) : i.mirror.canImprove (-v) = i.canImprove v := by
  rw [canImprove, canImprove, mirror]
  cases i.best with
  | none => rfl
  | some b => exact i.sense.improves_flip_neg v b.2

theorem update_mirror (x : List K) (v : K) : i.mirror.update x (-v) = (i.update x v).mirror := by
  rw [update, update, canImprove_mirror]
  split <;> rfl

end Incumbent

/-! ## The frontier -/

namespace Frontier

theorem precedes_mirror (s : Sense) (a b : Entry K) :
    precedes s.flip a.mirror b.mirror = precedes s a b := by
  rw [precedes, precedes, priority_eq, priority_eq, Entry.mirror, Entry.mirror,
    Sense.cost_flip_neg, Sense.cost_flip_neg]

/-- **Of mirror images the same one is taken first.** -/
theorem extract_mirror (s : Sense) (es : List (Entry K)) :
    extract s.flip (es.map Entry.mirror) =
      (extract s es).map fun r => (r.1.mirror, r.2.map Entry.mirror) := by
  induction es with
  | nil => rfl
  | cons e rest ih =>
      rw [List.map_cons, extract, extract, ih]
      cases extract s rest with
      | none => rfl
      | some r =>
          simp only [Option.map_some, precedes_mirror]
          split <;> rfl

theorem pop?_mirror (f : Frontier K) :
    f.mirror.pop? = f.pop?.map fun r => (r.1, r.2.mirror) := by
  rw [pop?, pop?, mirror, extract_mirror, Option.map_map, Option.map_map]
  rfl

theorem bestBound?_mirror (f : Frontier K) :
    f.mirror.bestBound? = f.bestBound?.map fun v => -v := by
  rw [bestBound?, bestBound?, mirror, extract_mirror, Option.map_map, Option.map_map]
  rfl

end Frontier

/-! ## The tree -/

namespace Tree

variable (t : Tree K)

theorem nextId_mirror : t.mirror.nextId = t.nextId := List.length_map _

theorem push_mirror (n : Node K) : t.mirror.push n.mirror = (t.push n).mirror := by
  rw [push, push, nextId_mirror, mirror, mirror, List.map_append]
  rfl

theorem node_mirror (id : ℕ) : t.mirror.node id = (t.node id).map Node.mirror := by
  rw [node, node, node?, node?, mirror, List.getElem?_map]
  cases t.nodes[id]? <;> rfl

theorem modify_mirror (id : ℕ) {f : Node K → Node K} (hf : ∀ n, (f n).mirror = f n.mirror) :
    t.mirror.modify id f = (t.modify id f).mirror := by
  rw [modify, modify, mirror, mirror]
  congr 1
  refine List.ext_getElem? fun i => ?_
  rw [List.getElem?_modify, List.getElem?_map, List.getElem?_map, List.getElem?_modify]
  cases t.nodes[i]? with
  | none => rfl
  | some n =>
      by_cases hi : id = i
      · simp [hi, hf]
      · simp [hi]

end Tree

/-! ## The bound of a state -/

theorem abs_neg_eq (v : K) : Scalar.abs (-v) = Scalar.abs v := by
  rw [ExactScalar.abs_eq, ExactScalar.abs_eq, neg_neg, max_comm]

theorem relativeGap_neg (a b : K) : relativeGap (-a) (-b) = relativeGap a b := by
  have hsub : -a - -b = -(a - b) := by ring
  rw [relativeGap, relativeGap, ExactScalar.isFinite_eq, ExactScalar.isFinite_eq,
    ExactScalar.isFinite_eq, ExactScalar.isFinite_eq, hsub, abs_neg_eq, abs_neg_eq]

namespace State

variable (sense : Sense) (s : State K σ)

theorem betterOf_mirror (a b : K) : betterOf sense.flip (-a) (-b) = -betterOf sense a b := by
  rw [betterOf, betterOf, Sense.improves_flip_neg]
  split <;> rfl

theorem foldl_betterOf_mirror (a : K) (bs : List K) :
    (bs.map fun v => -v).foldl (betterOf sense.flip) (-a) = -bs.foldl (betterOf sense) a := by
  induction bs generalizing a with
  | nil => rfl
  | cons b bs ih => rw [List.map_cons, List.foldl_cons, List.foldl_cons, betterOf_mirror, ih]

/-- **The bound of the mirror image is the negated bound.** -/
theorem bestBound?_mirror :
    s.mirror.bestBound? sense.flip = (s.bestBound? sense).map fun v => -v := by
  have hopen : (s.mirror.frontier.bestBound?.toList ++ s.mirror.stalledBound.toList).filter
      s.mirror.incumbent.canImprove =
        ((s.frontier.bestBound?.toList ++ s.stalledBound.toList).filter
          s.incumbent.canImprove).map fun v => -v := by
    show (s.frontier.mirror.bestBound?.toList ++ (s.stalledBound.map fun v => -v).toList).filter
      s.incumbent.mirror.canImprove = _
    rw [Frontier.bestBound?_mirror, Option.toList_map, Option.toList_map, ← List.map_append,
      List.filter_map]
    congr 2
    funext v
    exact s.incumbent.canImprove_mirror v
  rw [bestBound?, bestBound?]
  simp only [hopen]
  cases (s.frontier.bestBound?.toList ++ s.stalledBound.toList).filter s.incumbent.canImprove with
  | nil => exact s.incumbent.value?_mirror
  | cons b rest => exact congrArg some (foldl_betterOf_mirror sense b rest)

theorem gap_mirror : s.mirror.gap sense.flip = s.gap sense := by
  have hvalue : s.mirror.incumbent.value? = s.incumbent.value?.map fun v => -v :=
    s.incumbent.value?_mirror
  rw [gap, gap, bestBound?_mirror, hvalue]
  cases s.bestBound? sense with
  | none => rfl
  | some bound =>
      cases s.incumbent.value? with
      | none => rfl
      | some value => exact relativeGap_neg bound value

theorem integralityGap_mirror : s.mirror.integralityGap = s.integralityGap := by
  have hroot : s.mirror.rootValue = s.rootValue.map fun v => -v := rfl
  have hvalue : s.mirror.incumbent.value? = s.incumbent.value?.map fun v => -v :=
    s.incumbent.value?_mirror
  rw [integralityGap, integralityGap, hroot, hvalue]
  cases s.rootValue with
  | none => rfl
  | some bound =>
      cases s.incumbent.value? with
      | none => rfl
      | some value => exact relativeGap_neg bound value

theorem stallIsOpen_mirror : s.mirror.stallIsOpen = s.stallIsOpen := by
  have hbound : s.mirror.stalledBound = s.stalledBound.map fun v => -v := rfl
  rw [stallIsOpen, stallIsOpen, hbound]
  cases s.stalledBound with
  | none => rfl
  | some bound => exact s.incumbent.canImprove_mirror bound

end State

/-! ## Tasks and runs -/

/-- Two tasks that are mirror images: the second has the negated objective, the other direction,
mirrored answers and the same settings, and the time is over for both or for neither. -/
structure Opposed (task task' : Task K σ) : Prop where
  sense_eq : task'.sense = task.sense.flip
  objective_eq : task'.objective = task.objective.map fun c => -c
  settings_eq : task'.settings = task.settings
  isLate_eq : ∀ m, task'.isLate m = task.isLate m
  solve_eq : ∀ b bounds, (task'.backend.solve b bounds).outcome =
    (task.backend.solve b bounds).outcome.map (Prod.map Answer.mirror id)

/-- **The same variable is split at.** -/
theorem Opposed.split?_eq {task task' : Task K σ} (h : Opposed task task') (x : List K) :
    task'.split? x = task.split? x := by
  have hweigh : Branching.weigh (task.objective.map fun c => -c) =
      Branching.weigh task.objective := by
    funext c
    rw [Branching.weigh, Branching.weigh, List.getElem?_map]
    have hneg : ((task.objective[c.1]?).map fun v => -v).getD 0 =
        -(task.objective[c.1]?).getD 0 := by
      cases task.objective[c.1]? with
      | none => exact neg_zero.symm
      | some v => rfl
    rw [hneg, abs_neg_eq]
  have hselect : Branching.select task.settings.branching (task.objective.map fun c => -c)
      task.settings.integralityTol x =
        Branching.select task.settings.branching task.objective task.settings.integralityTol x := by
    cases task.settings.branching with
    | firstFractional => rfl
    | mostFractional => rfl
    | maxCoefficient =>
        unfold Branching.select
        rw [hweigh]
  rw [Task.split?, Task.split?, h.objective_eq, h.settings_eq, Branching.split?, Branching.split?,
    hselect]

/-- The second run ends with the image of the first one's result, or stops for the same reason, and
takes the mirrored snapshots. -/
structure Mirrors {α β : Type} (f : α → β) (r : Run K α) (r' : Run K β) : Prop where
  outcome_eq : r'.outcome = r.outcome.map f
  snapshots_eq : snapshots r'.events = (snapshots r.events).map Progress.mirror

namespace Mirrors

variable {α α' β β' : Type} {f : α → α'} {g : β → β'}

theorem pure {a : α} {b : α'} (h : b = f a) :
    Mirrors f (Pure.pure a : Run K α) (Pure.pure b) :=
  ⟨congrArg Except.ok h, rfl⟩

theorem stop (reason : Breakdown) :
    Mirrors f (Recorded.stop reason : Run K α) (Recorded.stop reason) :=
  ⟨rfl, rfl⟩

theorem ofExcept {e : Except Breakdown α} {e' : Except Breakdown α'} (h : e' = e.map f) :
    Mirrors f (Recorded.ofExcept e : Run K α) (Recorded.ofExcept e') := by
  subst h
  cases e <;> exact ⟨rfl, rfl⟩

/-- Events that are no snapshots do not matter. -/
theorem report {e e' : Event K} (h : snapshots [e] = []) (h' : snapshots [e'] = []) :
    Mirrors id (Recorded.report e) (Recorded.report e') :=
  ⟨rfl, by rw [Recorded.report_eq, Recorded.report_eq, h, h']; rfl⟩

/-- **One thing after the other**: if both parts mirror, so does the whole. -/
theorem bind {r : Run K α} {r' : Run K α'} {k : α → Run K β} {k' : α' → Run K β'}
    (h : Mirrors f r r') (hk : ∀ a, Mirrors g (k a) (k' (f a))) :
    Mirrors g (r >>= k) (r' >>= k') := by
  refine ⟨Recorded.outcome_bind_map h.outcome_eq fun a => (hk a).outcome_eq, ?_⟩
  obtain ⟨es, out⟩ := r
  obtain ⟨es', out'⟩ := r'
  obtain ⟨rfl, hevents⟩ := h
  cases out with
  | error _ => exact hevents
  | ok a =>
      show snapshots (es' ++ (k' (f a)).events) = (snapshots (es ++ (k a).events)).map _
      rw [snapshots, snapshots, List.filterMap_append, List.filterMap_append, List.map_append]
      exact congrArg₂ _ hevents (hk a).snapshots_eq

end Mirrors

/-! ## Children -/

section Steps

variable {task task' : Task K σ} (h : Opposed task task') (s : State K σ)
include h

theorem relax_mirror (bounds : List (Bound K)) :
    Mirrors (Prod.map Answer.mirror State.mirror) (relax task s bounds)
      (relax task' s.mirror bounds) := by
  have hsilent : ∀ es : List (Simplex.Event K), snapshots (es.map Event.linear) = [] := by
    intro es
    induction es with
    | nil => rfl
    | cons _ _ ih => exact ih
  have hsolve : Mirrors (Prod.map Answer.mirror id)
      ((task.backend.solve s.backend bounds).mapEvents Event.linear)
      ((task'.backend.solve s.backend bounds).mapEvents Event.linear) := by
    refine ⟨h.solve_eq _ _, ?_⟩
    rw [Recorded.events_mapEvents, Recorded.events_mapEvents, hsilent, hsilent]
    rfl
  refine Mirrors.bind (.report rfl rfl) fun _ => hsolve.bind ?_
  rintro ⟨a, b⟩
  exact Mirrors.bind (.report rfl rfl) fun _ => .pure rfl

theorem noteStall_mirror (v : K) :
    noteStall task'.sense s.mirror (-v) = (noteStall task.sense s v).mirror := by
  have hbound : s.mirror.stalledBound = s.stalledBound.map fun v => -v := rfl
  rw [noteStall, noteStall, hbound, h.sense_eq]
  cases s.stalledBound with
  | none => rfl
  | some bound =>
      simp only [Option.map_some, Sense.improves_flip_neg]
      split <;> rfl

/-- **The child plays the same part.** -/
theorem classify_mirror (i : ℕ) (v : K) (a : Answer K) :
    Mirrors (Prod.map id State.mirror) (classify task s i v a)
      (classify task' s.mirror i (-v) a.mirror) := by
  have hstalled : ∀ verdict, Mirrors (Prod.map id State.mirror)
      (Recorded.report (.stalled i verdict) >>= fun _ =>
        (pure (NodeKind.infeasible, noteStall task.sense s v) : Run K (NodeKind × State K σ)))
      (Recorded.report (.stalled i verdict) >>= fun _ =>
        pure (NodeKind.infeasible, noteStall task'.sense s.mirror (-v))) := by
    intro verdict
    refine Mirrors.bind (.report rfl rfl) fun _ => .pure ?_
    rw [noteStall_mirror h]
    rfl
  obtain ⟨verdict, status, x, value, pivots⟩ := a
  cases verdict with
  | infeasible => exact .pure rfl
  | unbounded => exact hstalled .unbounded
  | pivotLimit => exact hstalled .pivotLimit
  | optimal =>
      cases value with
      | none => exact hstalled .optimal
      | some value =>
          simp only [classify, Answer.mirror, Option.map_some, h.split?_eq]
          have himproves : s.mirror.incumbent.canImprove (-value) = s.incumbent.canImprove value :=
            s.incumbent.canImprove_mirror value
          have hupdate : s.mirror.incumbent.update x (-value) =
              (s.incumbent.update x value).mirror := s.incumbent.update_mirror x value
          rw [himproves, hupdate]
          cases task.split? x with
          | none =>
              cases s.incumbent.canImprove value with
              | true => exact Mirrors.bind (.report rfl rfl) fun _ => .pure rfl
              | false => exact .pure rfl
          | some d =>
              cases s.incumbent.canImprove value with
              | true => exact .pure rfl
              | false => exact .pure rfl

theorem addChild_mirror [PlainText K] (parent : Node K) (v : K) (bound : Bound K) :
    Mirrors State.mirror (addChild task parent v s bound)
      (addChild task' parent.mirror (-v) s.mirror bound) := by
  have hid : s.mirror.tree.nextId = s.tree.nextId := s.tree.nextId_mirror
  refine (relax_mirror h s _).bind ?_
  rintro ⟨a, s₁⟩
  simp only [Prod.map, hid]
  refine (classify_mirror h s₁ _ v a).bind ?_
  rintro ⟨kind, s₂⟩
  have htree := s₂.tree.push_mirror
    { (parent.child s.tree.nextId bound).withRelaxation a.status a.x a.value with kind := kind }
  by_cases hkind : kind = .branch
  · simp only [Prod.map, id, if_pos hkind]
    have hvalue : a.mirror.value.getD (-v) = -(a.value.getD v) := Option.getD_map _ v a.value
    rw [hvalue]
    exact .pure (congrArg (fun t => { s₂.mirror with
      tree := t
      frontier := s₂.frontier.mirror.push s.tree.nextId (-(a.value.getD v)) }) htree)
  · simp only [Prod.map, id, if_neg hkind]
    exact .pure (congrArg (fun t => { s₂.mirror with tree := t }) htree)

/-! ## Nodes from the frontier -/

variable [PlainText K]

omit h [PlainText K] in
theorem close_mirror (i : ℕ) : close s.mirror i = (close s i).mirror := by
  have htree := s.tree.modify_mirror i (f := fun n => { n with kind := .pruned }) fun _ => rfl
  exact congrArg (fun t => { s.mirror with tree := t, pruned := s.pruned + 1 }) htree

/-- **Processing a node mirrors.** -/
theorem explore_mirror [SymmetricRim K] (i : ℕ) :
    Mirrors State.mirror (explore task s i) (explore task' s.mirror i) := by
  have hnode : (s.mirror.tree.node i).mapError Breakdown.fault =
      ((s.tree.node i).mapError Breakdown.fault).map Node.mirror := by
    have htree : s.mirror.tree.node i = (s.tree.node i).map Node.mirror := s.tree.node_mirror i
    rw [htree]
    cases s.tree.node i <;> rfl
  refine (Mirrors.ofExcept hnode).bind fun n => ?_
  have hvalue : n.mirror.value.getD task'.sense.worstValue =
      -(n.value.getD task.sense.worstValue) := by
    rw [h.sense_eq, Sense.worstValue_flip]
    exact Option.getD_map _ _ n.value
  have himproves : ∀ v, s.mirror.incumbent.canImprove (-v) = s.incumbent.canImprove v :=
    s.incumbent.canImprove_mirror
  have hsplit : task'.split? n.mirror.x = task.split? n.x := h.split?_eq n.x
  simp only [hvalue, himproves, hsplit]
  cases s.incumbent.canImprove (n.value.getD task.sense.worstValue) with
  | false => exact Mirrors.bind (.report rfl rfl) fun _ => .pure (close_mirror s i)
  | true =>
      simp only [Bool.not_true, Bool.false_eq_true, if_false]
      cases task.split? n.x with
      | none => exact Mirrors.bind (.report rfl rfl) fun _ => .pure rfl
      | some d =>
          exact Mirrors.bind (.report rfl rfl) fun _ => (addChild_mirror h s n _ d.down).bind
            fun s₁ => addChild_mirror h s₁ n _ d.up

omit [PlainText K] in
theorem snapshot_mirror : Mirrors id (snapshot task s) (snapshot task' s.mirror) := by
  have hexplored : s.mirror.explored = s.explored := rfl
  have hvalue : s.mirror.incumbent.value? = s.incumbent.value?.map fun v => -v :=
    s.incumbent.value?_mirror
  rw [snapshot, snapshot, h.settings_eq, hexplored, hvalue]
  split
  · exact ⟨rfl, rfl⟩
  · exact .pure rfl

/-- A visit mirrors. -/
theorem visit_mirror [SymmetricRim K] (i : ℕ) (rest : Frontier K) :
    Mirrors State.mirror (visit task s i rest) (visit task' s.mirror i rest.mirror) := by
  have hexplore := explore_mirror h { s with frontier := rest, explored := s.explored + 1 } i
  exact hexplore.bind fun s₁ => (snapshot_mirror h s₁).bind fun _ => .pure rfl

/-- **The loop mirrors.** -/
theorem grow_mirror [SymmetricRim K] (budget : ℕ) :
    Mirrors (Prod.map State.mirror id) (grow task budget s) (grow task' budget s.mirror) := by
  have hpop : ∀ s : State K σ, s.mirror.frontier.pop? =
      s.frontier.pop?.map fun r => (r.1, r.2.mirror) := fun s => s.frontier.pop?_mirror
  induction budget generalizing s with
  | zero =>
      rw [grow, grow, hpop]
      cases s.frontier.pop? with
      | none => exact .pure rfl
      | some r => exact .pure rfl
  | succ budget ih =>
      rw [grow, grow, hpop]
      cases s.frontier.pop? with
      | none => exact .pure rfl
      | some r =>
          have hexplored : s.mirror.explored = s.explored := rfl
          simp only [Option.map_some, h.isLate_eq, hexplored]
          cases task.isLate (.beforeNode s.explored) with
          | true => exact .pure rfl
          | false => exact (visit_mirror h s r.1 r.2).bind fun s₁ => ih s₁

/-! ## The whole search -/

omit [PlainText K] in
/-- **The root plays the same part.** -/
theorem settleRoot_mirror [SymmetricRim K] (a : Answer K) :
    Mirrors (Prod.map State.mirror id) (settleRoot task s a)
      (settleRoot task' s.mirror a.mirror) := by
  have hnext : s.mirror.tree.nextId = s.tree.nextId := s.tree.nextId_mirror
  have htree : ∀ kind, s.mirror.tree.push (rootNode a.mirror kind) =
      (s.tree.push (rootNode a kind)).mirror := fun kind => s.tree.push_mirror (rootNode a kind)
  have hvalue : a.mirror.value.getD task'.sense.worstValue =
      -(a.value.getD task.sense.worstValue) := by
    rw [h.sense_eq, Sense.worstValue_flip]
    exact Option.getD_map _ _ a.value
  have hverdict : a.mirror.verdict = a.verdict := rfl
  have hsplit : task'.split? a.mirror.x = task.split? a.x := h.split?_eq a.x
  have hupdate : ∀ v, s.mirror.incumbent.update a.mirror.x (-v) =
      (s.incumbent.update a.x v).mirror := s.incumbent.update_mirror a.x
  rw [settleRoot, settleRoot, hverdict]
  simp only [htree, hnext, hvalue, hsplit, hupdate]
  cases a.verdict with
  | unbounded => exact .stop _
  | infeasible => exact .pure rfl
  | pivotLimit => exact Mirrors.bind (.report rfl rfl) fun _ => .pure rfl
  | optimal =>
      cases task.split? a.x with
      | none => exact Mirrors.bind (.report rfl rfl) fun _ => .pure rfl
      | some d => exact Mirrors.bind (.report rfl rfl) fun _ => .pure rfl

omit [PlainText K] in
/-- **Starting mirrors.** -/
theorem start_mirror [SymmetricRim K] (b : σ) :
    Mirrors (Prod.map State.mirror id) (start task b) (start task' b) := by
  have hinitial : State.initial task'.sense b =
      (State.initial task.sense b : State K σ).mirror := by
    rw [h.sense_eq]
    rfl
  rw [start, start, plantRoot, plantRoot, hinitial]
  refine Mirrors.bind (.report rfl rfl) fun _ => (relax_mirror h _ []).bind ?_
  rintro ⟨a, s⟩
  exact settleRoot_mirror h s a

theorem run_mirror [SymmetricRim K] (b : σ) :
    Mirrors (Prod.map State.mirror id) (run task b) (run task' b) := by
  refine (start_mirror h b).bind ?_
  rintro ⟨s, st⟩
  cases st with
  | settled => exact .pure rfl
  | growing =>
      show Mirrors _ (grow task task.settings.maxNodes s)
        (grow task' task'.settings.maxNodes s.mirror)
      rw [h.settings_eq]
      exact grow_mirror h s _

omit [PlainText K] in
/-- The result is mirrored, but for the time, which each search takes from its own clock. -/
theorem finish_mirror (limit : Option Limit) : finish task' s.mirror limit =
    { (finish task s limit).mirror with elapsed := task'.clock .atEnd } := by
  have hlimit : finalLimit s.mirror limit = finalLimit s limit := by
    cases limit with
    | some l => rfl
    | none => rw [finalLimit, finalLimit, s.stallIsOpen_mirror]
  have hsolution : s.mirror.incumbent.hasSolution = s.incumbent.hasSolution :=
    s.incumbent.hasSolution_mirror
  have hpoint : s.mirror.incumbent.point? = s.incumbent.point? := s.incumbent.point?_mirror
  have hvalue : s.mirror.incumbent.value? = s.incumbent.value?.map fun v => -v :=
    s.incumbent.value?_mirror
  rw [finish, finish, hlimit, hsolution, hpoint, hvalue, h.sense_eq, s.gap_mirror,
    s.integralityGap_mirror]
  rfl

/-- **The whole search mirrors.** -/
theorem solve_mirror [SymmetricRim K] (b : σ) :
    Mirrors (fun solution => { solution.mirror with elapsed := task'.clock .atEnd })
      (solve task b) (solve task' b) := by
  refine (run_mirror h b).bind ?_
  rintro ⟨s, limit⟩
  exact Mirrors.bind (.report rfl rfl) fun _ => .pure (finish_mirror h s limit)

end Steps

end Search

namespace IntegerProgram

open Search

variable {settings : Search.Settings K} {clock clock' : Clock}

/-- Without a time limit the clocks may differ. -/
theorem opposed_task [SymmetricRim K] (p : IntegerProgram K)
    (hclock : settings.timeLimit = none ∨ clock' = clock) :
    Opposed (p.task settings clock) (p.mirror.task settings clock') where
  sense_eq := rfl
  objective_eq := rfl
  settings_eq := rfl
  isLate_eq m := by
    rcases hclock with htime | rfl
    · rw [Task.isLate_eq_false htime, Task.isLate_eq_false htime]
    · rfl
  solve_eq := Relaxation.outcome_simplexBackend_mirror settings.linear p.relaxation

/-- **Maximizing an objective mirrors minimizing its negation.**  Whatever the settings: the search
of the program with the negated objective and the other direction fails for the same reason, or it
gives the same result up to the sign of values, and so it does with its snapshots on the way.  The
clocks may differ unless there is a time limit; each result has the time of its own clock. -/
theorem solve_mirrored [SymmetricRim K] [PlainText K] (p : IntegerProgram K)
    (settings : Search.Settings K) (clock clock' : Clock)
    (hclock : settings.timeLimit = none ∨ clock' = clock) :
    (p.mirror.solve settings clock').outcome = (p.solve settings clock).outcome.map
      (fun solution => { solution.mirror with elapsed := clock' .atEnd }) ∧
    snapshots (p.mirror.solve settings clock').events =
      (snapshots (p.solve settings clock).events).map Progress.mirror := by
  have hcheck : p.mirror.check = p.check := p.relaxation.check_mirror
  have hmirrors : Mirrors (fun solution => { solution.mirror with elapsed := clock' .atEnd })
      (p.solve settings clock) (p.mirror.solve settings clock') := by
    rw [IntegerProgram.solve, IntegerProgram.solve, hcheck]
    cases p.check with
    | error _ => exact .stop _
    | ok _ => exact Search.solve_mirror (p.opposed_task hclock) 0
  exact ⟨hmirrors.outcome_eq, hmirrors.snapshots_eq⟩

/-- Maximizing `x₁ + x₂` in `halves` finds `1`, and minimizing `-x₁ - x₂` finds `-1`. -/
theorem halves_solve_mirrored :
    SymmetricRim ℚ ∧ halvesSettings.timeLimit = none ∧
    ∃ solution, (halves.solve { halvesSettings with progressEvery := 1 } fun _ => 0).outcome =
        .ok solution ∧ solution.value = some 1 ∧
      (halves.mirror.solve { halvesSettings with progressEvery := 1 } fun _ => 7).outcome =
        .ok { solution.mirror with elapsed := 7 } ∧
      snapshots (halves.mirror.solve { halvesSettings with progressEvery := 1 } fun _ => 7).events =
        [⟨1, none, 1⟩, ⟨2, some (-1), 2⟩] := by
  obtain ⟨houtcome, hsnapshots⟩ := solve_mirrored halves { halvesSettings with progressEvery := 1 }
    (fun _ => 0) (fun _ => 7) (.inl rfl)
  have heval : (halves.solve { halvesSettings with progressEvery := 1 } fun _ => 0).outcome.map
      (fun solution => solution.value) = .ok (some 1) := by
    decide +kernel
  have htaken : snapshots (halves.solve { halvesSettings with progressEvery := 1 }
      fun _ => 0).events = [⟨1, none, 1⟩, ⟨2, some 1, 2⟩] := by
    decide +kernel
  obtain ⟨solution, hout, hvalue⟩ := exists_of_map_eq_ok heval
  rw [hout] at houtcome
  rw [htaken] at hsnapshots
  exact ⟨inferInstance, rfl, solution, hout, hvalue, houtcome, hsnapshots⟩

end IntegerProgram

end BranchBound
