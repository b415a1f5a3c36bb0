import BranchBound.Proofs.Search.Ranking
import BranchBound.Proofs.Search.TreeShape

/-!
# The incumbent is the first of the best

Nodes are explored in the order of their values, but an integral node is offered to the incumbent
right before it joins the tree.  So the incumbent of a state is what is left if its integral nodes
are offered in the order of their numbers (`Incumbent.ofNodes`, `Led`), and this is easy to tell if
the values come from a linear order (`Crowns`): it is the first of those that no other one beats,
and it was replaced once for each integral node that beats all before it.  Nodes are pruned because
they cannot improve on the incumbent, and a better incumbent is still harder to improve on
(`canImprove_update_eq_false`).
-/

namespace BranchBound

variable {K : Type} [Scalar K] {σ : Type}

namespace Search

open Relaxation

/-! ## Integral nodes -/

namespace Node

omit [Scalar K] in
/-- The point of the node is a solution. -/
def IsIntegral (n : Node K) : Prop := n.kind = .integer ∨ n.kind = .optimal

omit [Scalar K] in
instance (n : Node K) : Decidable n.IsIntegral :=
  inferInstanceAs (Decidable (n.kind = .integer ∨ n.kind = .optimal))

/-- The value of the one node is strictly better than that of the other. -/
def Beats (sense : Sense) (n m : Node K) : Prop :=
  ∃ v ∈ n.value, ∃ w ∈ m.value, sense.improves v w = true

instance (sense : Sense) (n m : Node K) : Decidable (n.Beats sense m) :=
  inferInstanceAs (Decidable (∃ v ∈ n.value, ∃ w ∈ m.value, sense.improves v w = true))

/-- The node is integral, and no integral node beats it. -/
def IsUnbeatenIn (sense : Sense) (nodes : List (Node K)) (n : Node K) : Prop :=
  n.IsIntegral ∧ ∀ m ∈ nodes, m.IsIntegral → ¬ m.Beats sense n

/-- The node is integral and beats all integral nodes before it. -/
def IsRecordIn (sense : Sense) (nodes : List (Node K)) (n : Node K) : Prop :=
  n.IsIntegral ∧ ∀ m ∈ nodes, m.IsIntegral → m.id < n.id → n.Beats sense m

instance (sense : Sense) (nodes : List (Node K)) (n : Node K) :
    Decidable (n.IsRecordIn sense nodes) :=
  inferInstanceAs (Decidable
    (n.IsIntegral ∧ ∀ m ∈ nodes, m.IsIntegral → m.id < n.id → n.Beats sense m))

theorem beats_iff {sense : Sense} {n m : Node K} {v w : K} (hv : n.value = some v)
    (hw : m.value = some w) : n.Beats sense m ↔ sense.improves v w = true := by
  simp [Beats, hv, hw]

end Node

/-! ## One offer after the other -/

/-- The incumbent after the point of the node was offered. -/
def Incumbent.offer (i : Incumbent K) (n : Node K) : Incumbent K :=
  i.update n.x (n.value.getD i.sense.worstValue)

/-- What is left of the integral nodes if they are offered one after the other. -/
def Incumbent.ofNodes (sense : Sense) (nodes : List (Node K)) : Incumbent K :=
  (nodes.filter fun n => n.IsIntegral).foldl Incumbent.offer (.empty sense)

/-- Another node at the end is offered if it is integral. -/
theorem ofNodes_append (sense : Sense) (nodes : List (Node K)) (n : Node K) :
    Incumbent.ofNodes sense (nodes ++ [n]) =
      if n.IsIntegral then (Incumbent.ofNodes sense nodes).offer n
      else Incumbent.ofNodes sense nodes := by
  by_cases hn : n.IsIntegral <;>
    simp [Incumbent.ofNodes, List.filter_append, List.foldl_append, hn]

/-- The incumbent is the first of these nodes that no other one beats, and it was replaced once for
each one that beats all before it. -/
structure Crowns (sense : Sense) (nodes : List (Node K)) (i : Incumbent K) : Prop where
  sense_eq : i.sense = sense
  first : (i.best = none ∧ nodes = []) ∨ ∃ n v, n ∈ nodes ∧ n.value = some v ∧
    i.best = some (n.x, v) ∧
      ∀ m ∈ nodes, ¬ m.Beats sense n ∧ (m.id < n.id → n.Beats sense m)
  updates_eq : i.updates = nodes.countP fun n => ∀ m ∈ nodes, m.id < n.id → n.Beats sense m

variable {S : Set K} {sense : Sense} {nodes : List (Node K)} {i : Incumbent K}

/-- A node with a higher number does not count for the ones before it. -/
theorem countP_beats_append {n : Node K} (hid : ∀ m ∈ nodes, m.id < n.id) :
    (nodes ++ [n]).countP (fun k => ∀ m ∈ nodes ++ [n], m.id < k.id → k.Beats sense m) =
      nodes.countP (fun k => ∀ m ∈ nodes, m.id < k.id → k.Beats sense m) +
        if ∀ m ∈ nodes, n.Beats sense m then 1 else 0 := by
  rw [List.countP_append, List.countP_singleton]
  congr 1
  · refine List.countP_congr fun k hk => ?_
    have hlt := hid k hk
    simp only [List.mem_append, List.mem_singleton, or_imp, forall_and, forall_eq,
      decide_eq_true_eq, hlt.not_gt, false_implies, and_true]
  · refine if_congr ?_ rfl rfl
    simp only [List.mem_append, List.mem_singleton, or_imp, forall_and, forall_eq, lt_irrefl,
      false_implies, and_true, decide_eq_true_eq]
    exact forall₂_congr fun m hm => by simp [hid m hm]

section Offers

variable {n : Node K} {v : K} (hS : Scalar.OrderedOn S) (h : Crowns sense nodes i)
  (hvalues : ∀ m ∈ nodes, ∃ w ∈ S, m.value = some w) (hid : ∀ m ∈ nodes, m.id < n.id)
  (hv : n.value = some v) (hvS : v ∈ S)
include hS h hvalues hv hvS

/-- The best so far is not beaten, so what beats it beats all. -/
theorem Crowns.beats_all (himproves : i.canImprove v = true) :
    ∀ m ∈ nodes, n.Beats sense m ∧ ¬ m.Beats sense n := by
  intro m hm
  obtain ⟨w, hw, hmw⟩ := hvalues m hm
  have hvw : sense.improves v w = true := by
    obtain ⟨-, rfl⟩ | ⟨k, u, hk, hku, hbest, hall⟩ := h.first
    · cases hm
    · obtain ⟨u', hu', hku'⟩ := hvalues k hk
      obtain rfl := Option.some.inj (hku.symm.trans hku')
      have hvu : sense.improves v u = true := by
        have := canImprove_eq_true_iff.1 himproves u (by rw [Incumbent.value?, hbest]; rfl)
        rwa [h.sense_eq] at this
      refine (hS.improves_cotrans sense hvS hu' hw hvu).resolve_right fun hwu => ?_
      exact (hall m hm).1 ((Node.beats_iff hmw hku).2 hwu)
  refine ⟨(Node.beats_iff hv hmw).2 hvw, ?_⟩
  rw [Node.beats_iff hmw hv, hS.improves_asymm sense hvS hw hvw]
  simp

include hid

/-- **The next offer is taken exactly if it beats all before it.** -/
theorem Crowns.offer : Crowns sense (nodes ++ [n]) (i.offer n) := by
  have hoffer : i.offer n = i.update n.x v := by
    rw [Incumbent.offer, hv, Option.getD_some]
  rw [hoffer]
  by_cases himproves : i.canImprove v = true
  · have hbeats := h.beats_all hS hvalues hv hvS himproves
    rw [Incumbent.update, if_pos himproves]
    refine ⟨h.sense_eq, .inr ⟨n, v, by simp, hv, rfl, fun m hm => ?_⟩, ?_⟩
    · rcases List.mem_append.1 hm with hm | hm
      · exact ⟨(hbeats m hm).2, fun _ => (hbeats m hm).1⟩
      · obtain rfl := List.mem_singleton.1 hm
        rw [Node.beats_iff hv hv, hS.improves_self sense hvS]
        exact ⟨by simp, fun hlt => absurd hlt (lt_irrefl _)⟩
    · rw [countP_beats_append hid, if_pos fun m hm => (hbeats m hm).1, ← h.updates_eq]
  · rw [Incumbent.update, if_neg himproves]
    obtain ⟨w, hw, hvw⟩ := canImprove_eq_false_iff.1 (Bool.eq_false_iff.2 himproves)
    rw [h.sense_eq] at hvw
    obtain ⟨hnone, -⟩ | ⟨k, u, hk, hku, hbest, hall⟩ := h.first
    · rw [Incumbent.value?, hnone] at hw
      cases hw
    · obtain rfl : u = w := by
        rw [Incumbent.value?, hbest] at hw
        exact Option.some.inj hw
      have hnot : ¬ n.Beats sense k := by
        rw [Node.beats_iff hv hku, hvw]
        simp
      refine ⟨h.sense_eq, .inr ⟨k, u, List.mem_append_left _ hk, hku, hbest, fun m hm => ?_⟩, ?_⟩
      · rcases List.mem_append.1 hm with hm | hm
        · exact hall m hm
        · obtain rfl := List.mem_singleton.1 hm
          exact ⟨hnot, fun hlt => absurd hlt (hid k hk).not_gt⟩
      · rw [countP_beats_append hid, if_neg fun hbeats => hnot (hbeats k hk), Nat.add_zero,
          ← h.updates_eq]

end Offers

/-- **What is left of many offers is the first of the best.** -/
theorem crowns_foldl (hS : Scalar.OrderedOn S) (sense : Sense)
    (hvalues : ∀ m ∈ nodes, ∃ w ∈ S, m.value = some w)
    (hids : nodes.Pairwise fun m n => m.id < n.id) :
    Crowns sense nodes (nodes.foldl Incumbent.offer (.empty sense)) := by
  induction nodes using List.reverseRecOn with
  | nil => exact ⟨rfl, .inl ⟨rfl, rfl⟩, rfl⟩
  | append_singleton nodes n ih =>
      rw [List.pairwise_append] at hids
      obtain ⟨hbefore, -, hid⟩ := hids
      obtain ⟨v, hvS, hv⟩ := hvalues n (by simp)
      have hvalues' : ∀ m ∈ nodes, ∃ w ∈ S, m.value = some w :=
        fun m hm => hvalues m (List.mem_append_left _ hm)
      rw [List.foldl_append]
      exact (ih hvalues' hbefore).offer hS hvalues' (fun m hm => hid m hm n (by simp)) hv hvS

/-- **A better incumbent is harder to improve on.** -/
theorem canImprove_update_eq_false (hS : Scalar.OrderedOn S) {v w : K} (hv : v ∈ S) (hw : w ∈ S)
    (hi : ∀ u, i.value? = some u → u ∈ S) (h : i.canImprove v = false) (x : List K) :
    (i.update x w).canImprove v = false := by
  by_cases himproves : i.canImprove w = true
  · obtain ⟨u, hu, hvu⟩ := canImprove_eq_false_iff.1 h
    have hwu := canImprove_eq_true_iff.1 himproves u hu
    have huw := hS.improves_asymm i.sense hw (hi u hu) hwu
    refine canImprove_eq_false_iff.2 ⟨w, ?_, ?_⟩
    · rw [Incumbent.value?, Incumbent.best_update himproves]
      rfl
    · rw [sense_update]
      exact hS.not_improves_trans i.sense hv (hi u hu) hw hvu huw
  · rwa [Incumbent.update_of_not_canImprove (Bool.eq_false_iff.2 himproves)]

/-! ## Step by step -/

variable {task : Task K σ} {b : σ} {s s' : State K σ} {n p : Node K}

/-- A child that is integral is offered to the incumbent, and no other child is. -/
theorem Classifies.offers {v : K} {a : Answer K} {kind : NodeKind}
    (h : Classifies task s v a kind s') :
    (kind = .integer ∧ ∃ w, a.value = some w ∧ s'.incumbent = s.incumbent.update a.x w) ∨
      (kind ≠ .integer ∧ kind ≠ .optimal ∧ s'.incumbent = s.incumbent ∧
        (kind = .pruned → ∃ w, a.value = some w ∧ s.incumbent.canImprove w = false)) := by
  cases h with
  | infeasible _ => exact .inr ⟨by simp, by simp, rfl, by simp⟩
  | integer _ hvalue _ => exact .inl ⟨rfl, _, hvalue, rfl⟩
  | branch _ _ _ _ => exact .inr ⟨by simp, by simp, rfl, by simp⟩
  | pruned _ hvalue _ himproves =>
      exact .inr ⟨by simp, by simp, rfl, fun _ => ⟨_, hvalue, himproves⟩⟩
  | stalled _ _ => exact .inr ⟨by simp, by simp, rfl, by simp⟩

/-- The incumbent is what is left of the integral nodes, which have values, and nodes that are
pruned cannot improve on it. -/
structure Led (task : Task K σ) (s : State K σ) : Prop where
  incumbent_eq : s.incumbent = .ofNodes task.sense s.tree.nodes
  valued : ∀ n ∈ s.tree.nodes, n.IsIntegral → n.value ≠ none
  beaten : ∀ n ∈ s.tree.nodes, n.kind = .pruned →
    ∃ v, n.value = some v ∧ s.incumbent.canImprove v = false

namespace Led

/-- The root is offered if it is integral. -/
theorem root (hvalued : task.backend.IsValued) {c : σ} {a : Answer K} {st : Start}
    (hsolve : (task.backend.solve b []).outcome = .ok (a, c)) (h : Plants task c a s st) :
    Led task s := by
  have halone : ∀ {kind : NodeKind}, (kind = .integer ∨ kind = .optimal → a.value ≠ none) →
      ∀ n ∈ [rootNode a kind], n.IsIntegral → n.value ≠ none := by
    intro kind hkind n hn
    rw [List.mem_singleton.1 hn]
    exact hkind
  have hpruned : ∀ {kind : NodeKind} {i : Incumbent K}, kind ≠ .pruned →
      ∀ n ∈ [rootNode a kind], n.kind = .pruned →
        ∃ v, n.value = some v ∧ i.canImprove v = false := by
    intro kind i hne n hn hkind
    rw [List.mem_singleton.1 hn] at hkind
    exact absurd hkind hne
  cases h with
  | infeasible _ => exact ⟨rfl, halone (by simp), hpruned (by simp)⟩
  | stalled _ => exact ⟨rfl, halone (by simp), hpruned (by simp)⟩
  | integral hverdict _ =>
      exact ⟨rfl, halone fun _ => (hvalued _ _ _ _ hsolve).2 hverdict, hpruned (by simp)⟩
  | fractional _ _ => exact ⟨rfl, halone (by simp), hpruned (by simp)⟩

/-- Closing a branch that cannot improve on the incumbent leaves the integral nodes as they are. -/
theorem close (h : Led task s) {id : ℕ} (hn : s.tree.node? id = some n) (hkind : n.kind = .branch)
    {v : K} (hv : n.value = some v) (himproves : s.incumbent.canImprove v = false) :
    Led task (close s id) := by
  obtain ⟨l₁, l₂, hold, hclosed⟩ := exists_nodes_close hn
  have hopen : ¬ n.IsIntegral := by simp [Node.IsIntegral, hkind]
  have hpruned : ¬ ({ n with kind := .pruned } : Node K).IsIntegral := by
    simp [Node.IsIntegral]
  have hmem : ∀ k ∈ (Search.close s id).tree.nodes,
      k ∈ s.tree.nodes ∨ k = { n with kind := .pruned } := by
    intro k hk
    rw [hclosed] at hk
    rw [hold]
    simp only [List.mem_append, List.mem_cons] at hk ⊢
    tauto
  refine ⟨?_, fun k hk hintegral => ?_, fun k hk hkpruned => ?_⟩
  · show s.incumbent = _
    rw [h.incumbent_eq, Incumbent.ofNodes, Incumbent.ofNodes, hclosed, hold]
    simp [List.filter_append, hopen, hpruned]
  · rcases hmem k hk with hk | rfl
    · exact h.valued k hk hintegral
    · exact absurd hintegral hpruned
  · rcases hmem k hk with hk | rfl
    · exact h.beaten k hk hkpruned
    · exact ⟨v, hv, himproves⟩

/-- **A child that joins the tree is offered if it is integral.** -/
theorem joins [PlainText K] (hordered : Scalar.OrderedOn task.backend.values) (h : Led task s)
    (hvalues : Valued task s) {v : K} {bound : Bound K} {a : Answer K} {s₁ : State K σ}
    (hjoins : Joins task p v bound s s' n a s₁) : Led task s' := by
  obtain ⟨-, -, hnodes⟩ := hjoins.isChild
  obtain ⟨⟨c, hsolve, hclassify⟩, hn, rfl⟩ := hjoins
  have hvalue : n.value = a.value := by rw [hn]; rfl
  have hx : n.x = a.x := by rw [hn]; rfl
  have hmem : ∀ m ∈ (s₁.join n v).tree.nodes, m ∈ s.tree.nodes ∨ m = n := by
    intro m hm
    rw [hnodes] at hm
    exact (List.mem_append.1 hm).imp_right List.mem_singleton.1
  have hintegral : n.IsIntegral ↔ n.kind = .integer ∨ n.kind = .optimal := Iff.rfl
  rcases hclassify.offers with ⟨hkind, w, hw, heq⟩ | ⟨hinteger, hoptimal, heq, hpruned⟩
  · have heq : s₁.incumbent = s.incumbent.update a.x w := heq
    refine ⟨?_, fun m hm hi => ?_, fun m hm hmkind => ?_⟩
    · rw [hnodes, ofNodes_append, if_pos (hintegral.2 (.inl hkind)), ← h.incumbent_eq,
        Incumbent.offer, hvalue, hw, hx, Option.getD_some]
      exact heq
    · rcases hmem m hm with hm | rfl
      · exact h.valued m hm hi
      · rw [hvalue, hw]
        simp
    · rcases hmem m hm with hm | rfl
      · -- what was pruned before cannot improve on a better incumbent either
        obtain ⟨u, hu, himproves⟩ := h.beaten m hm hmkind
        refine ⟨u, hu, ?_⟩
        show s₁.incumbent.canImprove u = false
        rw [heq]
        exact canImprove_update_eq_false hordered (hvalues.value_mem m hm u hu)
          ⟨_, _, a, c, hsolve, hw⟩ hvalues.incumbent_mem himproves a.x
      · rw [hkind] at hmkind
        cases hmkind
  · have hnot : ¬ n.IsIntegral := by simp [hintegral, hinteger, hoptimal]
    have heq : s₁.incumbent = s.incumbent := heq
    refine ⟨?_, fun m hm hi => ?_, fun m hm hmkind => ?_⟩
    · rw [hnodes, ofNodes_append, if_neg hnot, ← h.incumbent_eq]
      exact heq
    · rcases hmem m hm with hm | rfl
      · exact h.valued m hm hi
      · exact absurd hi hnot
    · show ∃ u, m.value = some u ∧ s₁.incumbent.canImprove u = false
      rw [heq]
      rcases hmem m hm with hm | rfl
      · exact h.beaten m hm hmkind
      · rw [hvalue]
        exact hpruned hmkind

/-- **A visit offers the integral ones of the children that it adds.** -/
theorem visit [PlainText K] (hvalued : task.backend.IsValued)
    (hordered : Scalar.OrderedOn task.backend.values) (h : Led task s) (hvalues : Valued task s)
    {e : Entry K} {rest : Frontier K} (hvisits : Visits task s e rest n s') : Led task s' := by
  have hpopped : Led task { s with frontier := rest, explored := s.explored + 1 } :=
    ⟨h.incumbent_eq, h.valued, h.beaten⟩
  have hvalues' : Valued task { s with frontier := rest, explored := s.explored + 1 } :=
    ⟨hvalues.incumbent_mem, hvalues.value_mem, hvalues.valued, hvalues.stalled_mem⟩
  obtain ⟨v, hv, hmem⟩ := hvalues.exists_value hvisits.node hvisits.kind_eq
  have hprocesses := hvisits.processes
  cases hprocesses with
  | closed himproves =>
      rw [hv, Option.getD_some] at himproves
      exact hpopped.close hvisits.node hvisits.kind_eq hv himproves
  | kept _ _ => exact hpopped
  | split _ _ joinsLow joinsHigh =>
      rw [hv, Option.getD_some] at joinsLow joinsHigh
      have hlow := hvalues'.joins hvalued hmem joinsLow
      exact (hpopped.joins hordered hvalues' joinsLow).joins hordered hlow joinsHigh

end Led

/-- Numbers go up along the tree. -/
theorem WellFormed.pairwise_id (h : WellFormed task s) :
    s.tree.nodes.Pairwise fun m n => m.id < n.id := by
  rw [List.pairwise_iff_getElem]
  intro i j hi hj hij
  rwa [h.id_eq (List.getElem?_eq_getElem hi), h.id_eq (List.getElem?_eq_getElem hj)]

/-- **The incumbent is the first of the best integral nodes.** -/
theorem Led.crowns (h : Led task s) (hordered : Scalar.OrderedOn task.backend.values)
    (hwell : WellFormed task s) (hvalues : Valued task s) :
    Crowns task.sense (s.tree.nodes.filter fun n => n.IsIntegral) s.incumbent := by
  rw [h.incumbent_eq]
  refine crowns_foldl hordered task.sense (fun m hm => ?_) (hwell.pairwise_id.filter _)
  obtain ⟨hm, hintegral⟩ := List.mem_filter.1 hm
  obtain ⟨v, hv⟩ := Option.ne_none_iff_exists'.1 (h.valued m hm (of_decide_eq_true hintegral))
  exact ⟨v, hvalues.value_mem m hm v hv, hv⟩

/-! ## The whole search -/

/-- Where a search ends its incumbent is what is left of the integral nodes. -/
theorem run_led [PlainText K] (hvalued : task.backend.IsValued)
    (hordered : Scalar.OrderedOn task.backend.values) {limit : Option Limit}
    (h : (run task b).outcome = .ok (s, limit)) :
    WellFormed task s ∧ Valued task s ∧ Led task s := by
  obtain ⟨hwell, ⟨hvalues, hled⟩, -⟩ :=
    run_keeps (motive := fun s => Valued task s ∧ Led task s)
      (fun hsolve hplants => ⟨.root hvalued hsolve hplants, .root hvalued hsolve hplants⟩)
      (fun _ hbefore hvisits _ => ⟨hbefore.1.visit hvalued hvisits,
        hbefore.2.visit hvalued hordered hbefore.1 hvisits⟩) h
  exact ⟨hwell, hvalues, hled⟩

/-- The solution is the first of the best integral nodes of the tree. -/
structure IsFirstBest (sense : Sense) (solution : Solution K) : Prop where
  valued : ∀ n ∈ solution.tree, n.IsIntegral → n.value ≠ none
  none_iff : solution.x = none ↔ ∀ n ∈ solution.tree, ¬ n.IsIntegral
  /-- Point and value are those of the first integral node that no other one beats. -/
  first : solution.x ≠ none → ∃ n ∈ solution.tree, n.IsUnbeatenIn sense solution.tree ∧
    (∀ m ∈ solution.tree, m.IsUnbeatenIn sense solution.tree → n.id ≤ m.id) ∧
      solution.x = some n.x ∧ n.value ≠ none ∧ solution.value = n.value
  /-- The incumbent was replaced once for each integral node that beats all before it. -/
  updates_eq : solution.updates = solution.tree.countP fun n => n.IsRecordIn sense solution.tree
  /-- Pruned nodes are not better than the solution. -/
  pruned : ∀ n ∈ solution.tree, n.kind = .pruned → ∃ v w, n.value = some v ∧
    solution.value = some w ∧ sense.improves v w = false

/-- **The incumbent is the first of the best.**  If the answers of the backend have values exactly
if they are optimal, and these come from a linear order, then a search returns the first of the
integral nodes that no other one beats, however the nodes were explored. -/
theorem first_best [PlainText K] (hvalued : task.backend.IsValued)
    (hordered : Scalar.OrderedOn task.backend.values) {solution : Solution K}
    (h : (solve task b).outcome = .ok solution) : IsFirstBest task.sense solution := by
  obtain ⟨s, limit, hrun, rfl⟩ := solve_eq_ok_iff.1 h
  obtain ⟨hwell, hvalues, hled⟩ := run_led hvalued hordered hrun
  have hmem : ∀ {n}, n ∈ s.tree.nodes.filter (fun n => n.IsIntegral) ↔
      n ∈ s.tree.nodes ∧ n.IsIntegral := by
    intro n
    rw [List.mem_filter, decide_eq_true_eq]
  have hcrowns := hled.crowns hordered hwell hvalues
  have hpoint : (finish task s limit).x = s.incumbent.best.map Prod.fst := rfl
  refine ⟨hled.valued, ?_, fun hx => ?_, ?_, fun n hn hkind => ?_⟩
  · rw [hpoint, Option.map_eq_none_iff]
    obtain ⟨hnone, hnil⟩ | ⟨n, v, hn, -, hbest, -⟩ := hcrowns.first
    · refine iff_of_true hnone fun n hn hintegral => ?_
      exact List.ne_nil_of_mem (hmem.2 ⟨hn, hintegral⟩) hnil
    · obtain ⟨hn, hintegral⟩ := hmem.1 hn
      exact iff_of_false (by rw [hbest]; simp) fun hall => hall n hn hintegral
  · obtain ⟨hnone, -⟩ | ⟨n, v, hn, hv, hbest, hall⟩ := hcrowns.first
    · exact absurd (by rw [hpoint, hnone]; rfl) hx
    · obtain ⟨hn, hintegral⟩ := hmem.1 hn
      refine ⟨n, hn, ⟨hintegral, fun m hm hi => (hall m (hmem.2 ⟨hm, hi⟩)).1⟩, fun m hm hfree => ?_,
        by rw [hpoint, hbest]; rfl, by rw [hv]; simp, ?_⟩
      · by_contra hlt
        exact hfree.2 n hn hintegral ((hall m (hmem.2 ⟨hm, hfree.1⟩)).2 (not_le.1 hlt))
      · rw [hv]
        show s.incumbent.best.map Prod.snd = some v
        rw [hbest]
        rfl
  · show s.incumbent.updates = _
    rw [hcrowns.updates_eq, List.countP_filter]
    refine List.countP_congr fun n _ => ?_
    simp only [hmem, and_imp, Bool.and_eq_true, decide_eq_true_eq]
    exact and_comm
  · obtain ⟨v, hv, himproves⟩ := hled.beaten n hn hkind
    obtain ⟨w, hw, hvw⟩ := canImprove_eq_false_iff.1 himproves
    rw [hcrowns.sense_eq] at hvw
    exact ⟨v, w, hv, hw, hvw⟩

/-- Maximize `5 x₁ + 8 x₂` where `x₁ + x₂ ≤ 6` and `5 x₁ + 9 x₂ ≤ 45`. -/
def knapsack : IntegerProgram ℚ := .ofParts [5, 8] [[1, 1], [5, 9]] [6, 45] true

/-- The search of `knapsack` finds four integral nodes.  The first and the last of them beat all
before them, and the last is the solution. -/
theorem knapsack_first_best : ∃ solution,
    (solve (knapsack.task halvesSettings fun _ => 0) 0).outcome = .ok solution ∧
      Scalar.OrderedOn (knapsack.task halvesSettings fun _ => 0).backend.values ∧
      IsFirstBest .maximize solution ∧
      (solution.tree.filter fun n => n.IsIntegral).map (fun n => (n.id, n.value)) =
        [(2, some 39), (3, some 34), (7, some 37), (8, some 40)] ∧
      solution.updates = 2 ∧ solution.value = some 40 := by
  have heval : (solve (knapsack.task halvesSettings fun _ => 0) 0).outcome.map
      (fun solution => ((solution.tree.filter fun n => n.IsIntegral).map
        (fun n => (n.id, n.value)), solution.updates, solution.value)) =
        .ok ([(2, some 39), (3, some 34), (7, some 37), (8, some 40)], 2, some 40) := by
    decide +kernel
  obtain ⟨solution, hout, heq⟩ := exists_of_map_eq_ok heval
  simp only [Prod.mk.injEq] at heq
  have hordered := ExactScalar.orderedOn (knapsack.task halvesSettings fun _ => 0).backend.values
  exact ⟨solution, hout, hordered,
    first_best (simplexBackend_isConsistent _ _).isValued hordered hout, heq⟩

end Search

end BranchBound
