import BranchBound.Proofs.Search.Ranking
import BranchBound.Proofs.Search.Turns

/-!
# Best first

The frontier serves an open node that no other is better than, and as values do not get better from
parent to child, what a turn adds is not better than the node it takes (`Serves`).  So the values of
the nodes that are taken never get better, and neither does the bound.  Once a taken node cannot
improve on the incumbent none of those that wait can, and all that are taken later are closed as
well (`Spent`).  And when a node is split, neither an open node nor the incumbent is better than it,
then and ever after (`Capped`): a node with a value worse than that of the final incumbent was not
split.

`best_first` states these four properties for every search that is `Orderly`.
-/

namespace BranchBound

variable {K : Type} [Scalar K] {σ : Type}

namespace Search

open Relaxation

/-- No child has a better value than its parent. -/
def Falling (sense : Sense) (nodes : List (Node K)) : Prop :=
  ∀ m n, IsParent nodes m n → ∀ v w, n.value = some v → m.value = some w →
    sense.improves v w = false

/-- What best-first order rests on: answers have a value exactly if they are optimal, values come
from a linear order, and in the trees of the search no child has a better value than its parent. -/
structure Orderly [PlainText K] (task : Task K σ) (b : σ) : Prop where
  valued : task.backend.IsValued
  ranked : Scalar.RankedOn task.backend.values
  falling : ∀ s, Passes task b s → Falling task.sense s.tree.nodes

variable {task : Task K σ} {b : σ} {s s' t t' : State K σ} {n p : Node K} {v : K}

/-! ## One turn -/

/-- What is new in the state `s'` is not better than `v`. -/
structure Follows (task : Task K σ) (v : K) (s s' : State K σ) : Prop where
  opened : ∀ e ∈ s'.frontier.entries,
    e ∈ s.frontier.entries ∨ task.sense.improves e.value v = false
  stalled : ∀ w, s'.stalledBound = some w →
    s.stalledBound = some w ∨ task.sense.improves w v = false
  incumbent : ∀ w, s'.incumbent.value? = some w →
    s.incumbent.value? = some w ∨ task.sense.improves w v = false

/-- What follows one step after another follows both. -/
theorem Follows.trans {s'' : State K σ} (h : Follows task v s s') (h' : Follows task v s' s'') :
    Follows task v s s'' where
  opened e he := (h'.opened e he).elim (h.opened e) .inr
  stalled w hw := (h'.stalled w hw).elim (h.stalled w) .inr
  incumbent w hw := (h'.incumbent w hw).elim (h.incumbent w) .inr

/-- A child that is not better than `v`, the value of its parent, brings nothing better than `v`. -/
theorem Joins.follows [PlainText K] {bound : Bound K} {a : Answer K} {s₁ : State K σ}
    (h : Joins task p v bound s s' n a s₁) (hself : task.sense.improves v v = false)
    (hchild : ∀ w, n.value = some w → task.sense.improves w v = false) : Follows task v s s' := by
  obtain ⟨⟨c, -, hclassify⟩, hn, rfl⟩ := h
  have hvalue : n.value = a.value := by rw [hn]; rfl
  refine ⟨fun e he => ?_, fun w hw => ?_, fun w hw => ?_⟩
  · rw [State.join, hclassify.tree_eq.2] at he
    split at he
    · rcases List.mem_cons.1 he with rfl | he
      · right
        cases hw : n.value with
        | none => exact hself
        | some w => exact hchild w hw
      · exact .inl he
    · exact .inl he
  · rcases hclassify.stalledBound_cases hw with rfl | hw
    · exact .inr hself
    · exact .inl hw
  · rcases hclassify.incumbent_value_cases hw with hw | hw
    · exact .inl hw
    · exact .inr (hchild w (hvalue.trans hw))

variable [PlainText K]

/-- A visit closes a node that cannot improve on the incumbent, and splits one that can. -/
theorem Visits.closes_or_splits {e : Entry K} {rest : Frontier K} (hwell : WellFormed task s)
    (h : Visits task s e rest n s') (hv : n.value = some v) :
    (s.incumbent.canImprove v = false ∧
      s' = close { s with frontier := rest, explored := s.explored + 1 } e.id) ∨
    (s.incumbent.canImprove v = true ∧ ∃ (d : Decision K) (low high : Node K) (a₁ a₂ : Answer K)
        (s₁ t₁ t₂ : State K σ),
      Joins task n v d.down { s with frontier := rest, explored := s.explored + 1 } s₁ low a₁ t₁ ∧
        Joins task n v d.up s₁ s' high a₂ t₂) := by
  have hvalue : n.value.getD task.sense.worstValue = v := by rw [hv]; rfl
  cases h.processes with
  | closed himproves => exact .inl ⟨hvalue ▸ himproves, rfl⟩
  | kept _ hsplit => exact absurd hsplit (hwell.fractional h.node h.kind_eq).splits
  | split himproves _ joinsLow joinsHigh =>
      rw [hvalue] at himproves joinsLow joinsHigh
      exact .inr ⟨himproves, _, _, _, _, _, _, _, _, joinsLow, joinsHigh⟩

/-- The turn takes a node that no open node is better than, and what it adds is not better. -/
structure Serves (task : Task K σ) (s : State K σ) (n : Node K) (v : K) (s' : State K σ) :
    Prop where
  value_eq : n.value = some v
  value_mem : v ∈ task.backend.values
  waits : ∃ e ∈ s.frontier.entries, e.value = v
  best : ∀ e ∈ s.frontier.entries, task.sense.improves e.value v = false
  follows : Follows task v s s'

/-- The values of open nodes come from the backend. -/
theorem Passes.entry_mem (hvalued : task.backend.IsValued) (hs : Passes task b s) :
    ∀ e ∈ s.frontier.entries, e.value ∈ task.backend.values := by
  intro e he
  obtain ⟨m, hm, hvalue⟩ := hs.aligned.entry_value e he
  obtain ⟨⟨m', hm', hkind⟩, -⟩ := hs.wellFormed.opened e he
  obtain rfl := Option.some.inj (hm.symm.trans hm')
  obtain ⟨w, hw, hmem⟩ := (hs.valued hvalued).exists_value hm hkind
  rw [hvalue, hw]
  exact hmem

/-- **Every turn serves a best node.** -/
theorem Turn.serves (h : Orderly task b) (hs : Passes task b s) (hturn : Turn task s n s') :
    ∃ v, Serves task s n v s' := by
  obtain ⟨e, rest, hpop, hvisits⟩ := hturn.visits hs
  have haligned := hs.aligned
  obtain ⟨v, hv, hmem⟩ := (hs.valued h.valued).exists_value hvisits.node hvisits.kind_eq
  have hself : task.sense.improves v v = false := h.ranked.improves_self task.sense hmem
  obtain ⟨d, hd, hid, hbest⟩ :=
    Frontier.exists_best_of_pop? h.ranked (hs.entry_mem h.valued) hpop
  have hdv : d.value = v := by
    obtain ⟨m, hm, hvalue⟩ := haligned.entry_value d hd
    rw [hid, hvisits.node] at hm
    obtain rfl := Option.some.inj hm
    rw [hvalue, hv]
    rfl
  rw [hdv, haligned.frontier_sense] at hbest
  refine ⟨v, hv, hmem, ⟨d, hd, hdv⟩, hbest, ?_⟩
  have hpopped : Follows task v s { s with frontier := rest, explored := s.explored + 1 } :=
    ⟨fun d hd => .inl (hvisits.entries.mem_iff.2 (List.mem_cons_of_mem _ hd)), fun _ => .inl,
      fun _ => .inl⟩
  obtain ⟨-, rfl⟩ | ⟨-, d, low, high, a₁, a₂, s₁, t₁, t₂, joinsLow, joinsHigh⟩ :=
    hvisits.closes_or_splits hs.wellFormed hv
  · exact hpopped.trans ⟨fun _ => .inl, fun _ => .inl, fun _ => .inl⟩
  · obtain ⟨hlow, -, hnodes₁⟩ := joinsLow.isChild
    obtain ⟨hhigh, -, hnodes₂⟩ := joinsHigh.isChild
    have hfalling := h.falling s' (hs.turn hturn)
    rw [hnodes₂, hnodes₁] at hfalling
    have hn := Tree.mem_nodes_iff.2 ⟨_, hvisits.node⟩
    -- both children are in the tree, below the node that is split
    have hchild : ∀ m ∈ s.tree.nodes ++ [low] ++ [high], m.parent = some n.id →
        ∀ w, m.value = some w → task.sense.improves w v = false := fun m hm hparent w hw =>
      hfalling n m ⟨by simp [hn], hm, hparent⟩ w v hw hv
    exact hpopped.trans ((joinsLow.follows hself (hchild low (by simp) hlow.parent_eq)).trans
      (joinsHigh.follows hself (hchild high (by simp) hhigh.parent_eq)))

/-! ## The values that are taken -/

/-- No open node is better than `v`. -/
def OpenBelow (task : Task K σ) (v : K) (s : State K σ) : Prop :=
  ∀ e ∈ s.frontier.entries, task.sense.improves e.value v = false

/-- Turns open nothing better than `v` where no open node is better. -/
theorem OpenBelow.turn (h : Orderly task b) (hs : Passes task b s) (hturn : Turn task s n s')
    (hv : v ∈ task.backend.values) (hbelow : OpenBelow task v s) : OpenBelow task v s' := by
  obtain ⟨u, hserves⟩ := hturn.serves h hs
  obtain ⟨d, hd, rfl⟩ := hserves.waits
  intro e he
  rcases hserves.follows.opened e he with he' | hnew
  · exact hbelow e he'
  · exact h.ranked.not_improves_trans task.sense ((hs.turn hturn).entry_mem h.valued e he)
      hserves.value_mem hv hnew (hbelow d hd)

omit [PlainText K] in
/-- After a turn no open node is better than the node that it took. -/
theorem Serves.openBelow (h : Serves task s n v s') : OpenBelow task v s' := by
  intro e he
  rcases h.follows.opened e he with he | hnew
  · exact h.best e he
  · exact hnew

/-! ## The bound -/

/-- Nothing that the state offers is better than `v`. -/
def OffersBelow (task : Task K σ) (v : K) (s : State K σ) : Prop :=
  ∀ w, Offers s w → task.sense.improves w v = false

/-- Everything that is offered comes from the backend. -/
theorem Passes.offers_mem (hvalued : task.backend.IsValued) (hs : Passes task b s) :
    ∀ w, Offers s w → w ∈ task.backend.values := by
  intro w hw
  cases hw with
  | opened he hv => exact hv ▸ hs.entry_mem hvalued _ he
  | stalled hv => exact (hs.valued hvalued).stalled_mem w hv
  | incumbent hv => exact (hs.valued hvalued).incumbent_mem w hv

/-- Turns offer nothing better than `v` where nothing better is offered. -/
theorem OffersBelow.turn (h : Orderly task b) (hs : Passes task b s) (hturn : Turn task s n s')
    (hv : v ∈ task.backend.values) (hbelow : OffersBelow task v s) : OffersBelow task v s' := by
  obtain ⟨u, hserves⟩ := hturn.serves h hs
  obtain ⟨d, hd, rfl⟩ := hserves.waits
  have hnew : ∀ w, Offers s' w → task.sense.improves w d.value = false →
      task.sense.improves w v = false := fun w hw hwd =>
    h.ranked.not_improves_trans task.sense ((hs.turn hturn).offers_mem h.valued w hw)
      hserves.value_mem hv hwd (hbelow _ (.opened hd rfl))
  intro w hw
  cases hw with
  | opened he hv =>
      rcases hserves.follows.opened _ he with he' | hlow
      · exact hbelow w (.opened he' hv)
      · exact hnew w (.opened he hv) (hv ▸ hlow)
  | stalled hv =>
      rcases hserves.follows.stalled w hv with hv' | hlow
      · exact hbelow w (.stalled hv')
      · exact hnew w (.stalled hv) hlow
  | incumbent hv =>
      rcases hserves.follows.incumbent w hv with hv' | hlow
      · exact hbelow w (.incumbent hv')
      · exact hnew w (.incumbent hv) hlow

/-- **The bound never gets better.** -/
theorem bestBound?_not_improves (h : Orderly task b) (hs : Passes task b s)
    (hturns : Turns task s t) {w : K} (hw : t.bestBound? task.sense = some w) :
    ∃ v, s.bestBound? task.sense = some v ∧ task.sense.improves w v = false := by
  have ht := hs.turns hturns
  have hoffered : Offers t w ∧ ∀ u, Offers t u → task.sense.improves u w = false :=
    State.bestBound?_spec task.sense ht.aligned.frontier_sense ht.aligned.incumbent_sense
      (ht.offers_mem h.valued) h.ranked hw
  -- a state in which a turn is made offers the value of the node that is taken
  obtain ⟨v, hv⟩ : ∃ v, s.bestBound? task.sense = some v := by
    rcases hturns.cases_head with rfl | ⟨s₁, ⟨n, hturn⟩, -⟩
    · exact ⟨w, hw⟩
    · obtain ⟨u, hserves⟩ := hturn.serves h hs
      obtain ⟨d, hd, -⟩ := hserves.waits
      exact (Offers.opened hd rfl).exists_bestBound? task.sense
  obtain ⟨hoffers, hbelow⟩ := State.bestBound?_spec task.sense hs.aligned.frontier_sense
    hs.aligned.incumbent_sense (hs.offers_mem h.valued) h.ranked hv
  have hmem := hs.offers_mem h.valued v hoffers
  exact ⟨v, hv, Turns.keeps (motive := OffersBelow task v) hs hturns
    (fun hs hbelow hturn => hbelow.turn h hs hturn hmem) hbelow w hoffered.1⟩

/-! ## Closed nodes -/

/-- No open node can improve on the incumbent. -/
def Spent (s : State K σ) : Prop :=
  ∀ e ∈ s.frontier.entries, s.incumbent.canImprove e.value = false

omit [Scalar K] [PlainText K] in
/-- The node is closed. -/
def ClosedIn (s : State K σ) (n : Node K) : Prop :=
  ∃ m, s.tree.node? n.id = some m ∧ m.kind = .pruned

/-- A node is closed by its turn exactly if its value cannot improve on the incumbent. -/
theorem Turn.closedIn_iff (hs : Passes task b s) (hturn : Turn task s n s')
    (hv : n.value = some v) : ClosedIn s' n ↔ s.incumbent.canImprove v = false := by
  obtain ⟨e, rest, -, hvisits⟩ := hturn.visits hs
  have hid : n.id = e.id := hs.wellFormed.id_eq hvisits.node
  obtain ⟨himproves, rfl⟩ | ⟨himproves, d, low, high, a₁, a₂, s₁, t₁, t₂, joinsLow, joinsHigh⟩ :=
    hvisits.closes_or_splits hs.wellFormed hv
  · exact iff_of_true ⟨_, node?_close_of_eq (hid ▸ hvisits.node) e.id, if_pos hid⟩ himproves
  · refine iff_of_false ?_ (Bool.eq_false_iff.not.2 (not_not.2 himproves))
    -- the node is still the branch that it was
    have hlt : n.id < s.tree.nodes.length := hid ▸ Tree.lt_size_of_node? hvisits.node
    have hn : s'.tree.node? n.id = some n := by
      show s'.tree.nodes[n.id]? = some n
      rw [joinsHigh.isChild.2.2, joinsLow.isChild.2.2, List.append_assoc,
        List.getElem?_append_left hlt, hid]
      exact hvisits.node
    rintro ⟨m, hm, hkind⟩
    obtain rfl := Option.some.inj (hn.symm.trans hm)
    rw [hvisits.kind_eq] at hkind
    cases hkind

/-- **When no open node can improve on the incumbent, turns only close nodes.** -/
theorem Spent.turn (h : Orderly task b) (hs : Passes task b s) (hturn : Turn task s n s')
    (hspent : Spent s) :
    Spent s' ∧ ClosedIn s' n ∧ s'.tree.IsLeaf n.id ∧ ∀ i, s.tree.IsLeaf i → s'.tree.IsLeaf i := by
  obtain ⟨v, hserves⟩ := hturn.serves h hs
  obtain ⟨d, hd, rfl⟩ := hserves.waits
  have himproves := hspent d hd
  have hclosed := (hturn.closedIn_iff hs hserves.value_eq).2 himproves
  obtain ⟨e, rest, -, hvisits⟩ := hturn.visits hs
  obtain ⟨-, rfl⟩ | ⟨himproves', -⟩ := hvisits.closes_or_splits hs.wellFormed hserves.value_eq
  · exact ⟨fun e he => hspent e (hvisits.entries.mem_iff.2 (List.mem_cons_of_mem _ he)), hclosed,
      isLeaf_close.2 (hs.wellFormed.id_eq hvisits.node ▸ hvisits.isLeaf),
      fun i hleaf => isLeaf_close.2 hleaf⟩
  · rw [himproves] at himproves'
    cases himproves'

/-- **Once a node is closed when it is taken, no open node can improve on the incumbent.** -/
theorem Serves.spent (h : Orderly task b) (hs : Passes task b s) (hturn : Turn task s n s')
    (hserves : Serves task s n v s') (hclosed : ClosedIn s' n) : Spent s' := by
  have himproves := (hturn.closedIn_iff hs hserves.value_eq).1 hclosed
  obtain ⟨i, hi, hvi⟩ := canImprove_eq_false_iff.1 himproves
  obtain ⟨e, rest, -, hvisits⟩ := hturn.visits hs
  obtain ⟨-, rfl⟩ | ⟨himproves', -⟩ := hvisits.closes_or_splits hs.wellFormed hserves.value_eq
  · intro d hd
    have hd : d ∈ s.frontier.entries := hvisits.entries.mem_iff.2 (List.mem_cons_of_mem _ hd)
    refine canImprove_eq_false_iff.2 ⟨i, hi, ?_⟩
    rw [hs.aligned.incumbent_sense] at hvi
    show s.incumbent.sense.improves d.value i = false
    rw [hs.aligned.incumbent_sense]
    exact h.ranked.not_improves_trans task.sense (hs.entry_mem h.valued d hd) hserves.value_mem
      ((hs.valued h.valued).incumbent_mem i hi) (hserves.best d hd) hvi
  · rw [himproves] at himproves'
    cases himproves'

/-! ## Split nodes -/

/-- No open node is better than a node with children, and neither is the incumbent. -/
def Capped (task : Task K σ) (s : State K σ) : Prop :=
  ∀ m k, IsParent s.tree.nodes m k → ∀ w, m.value = some w →
    (∀ e ∈ s.frontier.entries, task.sense.improves e.value w = false) ∧
      ∀ i, s.incumbent.value? = some i → task.sense.improves i w = false

/-- After a turn the nodes with children are those from before and the one that was split. -/
theorem Turn.isParent_cases (hs : Passes task b s) (hturn : Turn task s n s')
    (hv : n.value = some v) {m k : Node K} (h : IsParent s'.tree.nodes m k) :
    (∃ m₀ k₀, IsParent s.tree.nodes m₀ k₀ ∧ m₀.value = m.value) ∨
      m.value = some v ∧ s.incumbent.canImprove v = true := by
  have hwell := hs.wellFormed
  have hid : s'.tree.nodes[m.id]? = some m := by
    obtain ⟨j, hj⟩ := Tree.mem_nodes_iff.1 h.parent_mem
    have hj' := hj
    rw [← (hs.turn hturn).wellFormed.id_eq hj] at hj'
    exact hj'
  obtain ⟨e, rest, -, hvisits⟩ := hturn.visits hs
  obtain ⟨-, rfl⟩ | ⟨himproves, d, low, high, a₁, a₂, s₁, t₁, t₂, joinsLow, joinsHigh⟩ :=
    hvisits.closes_or_splits hwell hv
  · left
    obtain ⟨j, hj⟩ := Tree.mem_nodes_iff.1 h.parent_mem
    obtain ⟨i, hi⟩ := Tree.mem_nodes_iff.1 h.child_mem
    obtain ⟨m₀, hm₀, rfl⟩ := exists_of_node?_close hj
    obtain ⟨k₀, hk₀, rfl⟩ := exists_of_node?_close hi
    exact ⟨m₀, k₀, ⟨Tree.mem_nodes_iff.2 ⟨j, hm₀⟩, Tree.mem_nodes_iff.2 ⟨i, hk₀⟩, h.parent_eq⟩, rfl⟩
  · obtain ⟨hlow, -, hnodes₁⟩ := joinsLow.isChild
    obtain ⟨hhigh, -, hnodes₂⟩ := joinsHigh.isChild
    have hnodes : s'.tree.nodes = s.tree.nodes ++ [low, high] := by
      rw [hnodes₂, hnodes₁, List.append_assoc]
      rfl
    -- a number that was given before belongs to the same node
    have hold : ∀ {q : Node K}, s.tree.node? m.id = some q → m = q := by
      intro q hq
      have hlt : m.id < s.tree.nodes.length := (List.getElem?_eq_some_iff.1 hq).1
      rw [hnodes, List.getElem?_append_left hlt] at hid
      exact Option.some.inj (hid.symm.trans hq)
    have hsplit : k.parent = some n.id → m = n := by
      intro hparent
      have hmn : m.id = n.id := Option.some.inj (h.parent_eq.symm.trans hparent)
      refine hold ?_
      rw [hmn, hwell.id_eq hvisits.node]
      exact hvisits.node
    have hk := h.child_mem
    rw [hnodes] at hk
    simp only [List.mem_append, List.mem_cons, List.not_mem_nil, or_false] at hk
    obtain hk | rfl | rfl := hk
    · left
      obtain ⟨i, hi⟩ := Tree.mem_nodes_iff.1 hk
      obtain ⟨q, hq, -⟩ := hwell.parent hi h.parent_eq
      obtain rfl := hold hq
      exact ⟨m, k, ⟨Tree.mem_nodes_iff.2 ⟨_, hq⟩, hk, h.parent_eq⟩, rfl⟩
    · exact .inr ⟨hsplit hlow.parent_eq ▸ hv, himproves⟩
    · exact .inr ⟨hsplit hhigh.parent_eq ▸ hv, himproves⟩

/-- **Turns keep nodes with children as good as all that is open.** -/
theorem Capped.turn (h : Orderly task b) (hs : Passes task b s) (hturn : Turn task s n s')
    (hcapped : Capped task s) : Capped task s' := by
  obtain ⟨v, hserves⟩ := hturn.serves h hs
  obtain ⟨d, hd, rfl⟩ := hserves.waits
  have hs' := hs.turn hturn
  have hincumbent := (hs.valued h.valued).incumbent_mem
  have hincumbent' := (hs'.valued h.valued).incumbent_mem
  intro m k hmk w hw
  have hwmem : w ∈ task.backend.values := (hs'.valued h.valued).value_mem m hmk.parent_mem w hw
  obtain ⟨m₀, k₀, hmk₀, hvalue⟩ | ⟨hvalue, himproves⟩ :=
    hturn.isParent_cases hs hserves.value_eq hmk
  · -- what is new is not better than the node that was taken, which is not better than `m`
    obtain ⟨hopen, hinc⟩ := hcapped m₀ k₀ hmk₀ w (hvalue.trans hw)
    have hnew : ∀ u ∈ task.backend.values, task.sense.improves u d.value = false →
        task.sense.improves u w = false := fun u hu hud =>
      h.ranked.not_improves_trans task.sense hu hserves.value_mem hwmem hud (hopen d hd)
    refine ⟨fun e he => ?_, fun i hi => ?_⟩
    · rcases hserves.follows.opened e he with he' | hlow
      · exact hopen e he'
      · exact hnew _ (hs'.entry_mem h.valued e he) hlow
    · rcases hserves.follows.incumbent i hi with hi' | hlow
      · exact hinc i hi'
      · exact hnew i (hincumbent' i hi) hlow
  · -- `m` is the node that was taken, and it improved on the incumbent
    obtain rfl := Option.some.inj (hvalue.symm.trans hw)
    refine ⟨hserves.openBelow, fun i hi => ?_⟩
    rcases hserves.follows.incumbent i hi with hi' | hlow
    · have himproves := canImprove_eq_true_iff.1 himproves i hi'
      rw [hs.aligned.incumbent_sense] at himproves
      exact h.ranked.improves_asymm task.sense hserves.value_mem (hincumbent i hi') himproves
    · exact hlow

/-- No node with children is worse than the incumbent. -/
theorem Passes.capped (h : Orderly task b) (hs : Passes task b s) : Capped task s := by
  refine hs.keeps (motive := Capped task) (fun hsolve hplants => ?_)
    fun hs hcapped hturn => hcapped.turn h hs hturn
  obtain ⟨n, hrooted⟩ := hplants.rooted hsolve
  intro m k hmk
  have hk := hmk.child_mem
  rw [hrooted.tree_eq] at hk
  obtain rfl := List.mem_singleton.1 hk
  have hparent := hmk.parent_eq
  rw [hrooted.parent_eq] at hparent
  cases hparent

/-! ## The discipline -/

/-- The search takes the best nodes first. -/
structure BestFirst (task : Task K σ) (b : σ) : Prop where
  /-- The values of the nodes that are taken do not get better. -/
  taken : ∀ {s n s' t m t'}, Passes task b s → Turn task s n s' → Turns task s' t →
    Turn task t m t' →
      ∃ v w, n.value = some v ∧ m.value = some w ∧ task.sense.improves w v = false
  /-- The bound does not get better. -/
  bound : ∀ {s t w}, Passes task b s → Turns task s t → t.bestBound? task.sense = some w →
    ∃ v, s.bestBound? task.sense = some v ∧ task.sense.improves w v = false
  /-- After a node was closed when it was taken, all that are taken are closed as well, and they
  never get children. -/
  closed : ∀ {s n s' t m t'}, Passes task b s → Turn task s n s' → ClosedIn s' n →
    Turns task s' t → Turn task t m t' →
      ClosedIn t' m ∧ ∀ u, Turns task t' u → u.tree.IsLeaf m.id
  /-- Nodes that are worse than the final incumbent have no children. -/
  split : ∀ {solution v}, (solve task b).outcome = .ok solution → solution.value = some v →
    ∀ n ∈ solution.tree, ∀ w, n.value = some w → task.sense.improves v w = true →
      ∀ m ∈ solution.tree, m.parent ≠ some n.id

/-- **Orderly searches take the best nodes first**, whatever the backend, the settings and the
clock. -/
theorem best_first (task : Task K σ) (b : σ) (h : Orderly task b) : BestFirst task b where
  taken hs hturn hturns hturn' := by
    obtain ⟨v, hserves⟩ := hturn.serves h hs
    have hs' := hs.turn hturn
    obtain ⟨w, hserves'⟩ := hturn'.serves h (hs'.turns hturns)
    obtain ⟨d, hd, rfl⟩ := hserves'.waits
    exact ⟨v, d.value, hserves.value_eq, hserves'.value_eq,
      Turns.keeps (motive := OpenBelow task v) hs' hturns
        (fun hs hbelow hturn => hbelow.turn h hs hturn hserves.value_mem) hserves.openBelow d hd⟩
  bound hs hturns hw := bestBound?_not_improves h hs hturns hw
  closed hs hturn hclosed hturns hturn' := by
    obtain ⟨v, hserves⟩ := hturn.serves h hs
    have hs' := hs.turn hturn
    have hspent := Turns.keeps (motive := Spent) hs' hturns
      (fun hs hspent hturn => (hspent.turn h hs hturn).1) (hserves.spent h hs hturn hclosed)
    obtain ⟨hspent', hclosed', hleaf, -⟩ := hspent.turn h (hs'.turns hturns) hturn'
    refine ⟨hclosed', fun u hu => ?_⟩
    have hkeeps := Turns.keeps (motive := fun u => Spent u ∧ u.tree.IsLeaf _)
      ((hs'.turns hturns).turn hturn') hu (fun hs hu hturn => ?_) ⟨hspent', hleaf⟩
    · exact hkeeps.2
    · obtain ⟨hspent, -, -, hleaf⟩ := hu.1.turn h hs hturn
      exact ⟨hspent, hleaf _ hu.2⟩
  split hsolve hv n hn w hw himproves m hm hparent := by
    obtain ⟨s, limit, hrun, rfl⟩ := solve_eq_ok_iff.1 hsolve
    rcases run_passes hrun with hstart | hs
    · -- the root is the only node
      obtain ⟨r, hrooted⟩ := start_cases hstart
      exact hrooted.isLeaf n.id m hm hparent
    · obtain ⟨-, hinc⟩ := hs.capped h n m ⟨hn, hm, hparent⟩ w hw
      rw [hinc _ hv] at himproves
      cases himproves

/-- **With zero tolerances the search by the simplex method is orderly.** -/
theorem orderly_of_isExact {L : Type} [ExactScalar L] [PlainText L] (p : IntegerProgram L)
    (settings : Settings L) (clock : Clock) (hp : p.relaxation.Shaped)
    (hs : settings.linear.IsExact) : Orderly (p.task settings clock) 0 where
  valued := (simplexBackend_isConsistent settings.linear p.relaxation).isValued
  ranked := ExactScalar.rankedOn _
  falling s hpasses m n hmn v w hv hw := by
    obtain ⟨events, hfaithful⟩ := hpasses.faithful
    obtain ⟨-, u, hu, hbest⟩ := hmn.not_improves hp hs hpasses.wellFormed hfaithful
    obtain rfl := Option.some.inj (hu.symm.trans hw)
    exact hbest v hv

/-- The search of `halves` takes the root and one of its children, both with the value `3/2`. -/
theorem halves_best_first :
    Orderly (halves.task halvesSettings fun _ => 0) 0 ∧
    BestFirst (halves.task halvesSettings fun _ => 0) 0 ∧
    ∃ solution, (solve (halves.task halvesSettings fun _ => 0) 0).outcome = .ok solution ∧
      solution.explored = 2 ∧ solution.value = some 1 ∧
        ∀ n ∈ solution.tree, ∀ w, n.value = some w → halves.sense.improves 1 w = true →
          ∀ m ∈ solution.tree, m.parent ≠ some n.id := by
  have horderly : Orderly (halves.task halvesSettings fun _ => 0) 0 :=
    orderly_of_isExact halves halvesSettings (fun _ => 0)
      ((halves.relaxation.check_eq_ok_iff).1 rfl)
      (LinearProgram.Settings.isExact_exact .dantzig 100)
  have hbest := best_first _ 0 horderly
  have heval : (solve (halves.task halvesSettings fun _ => 0) 0).outcome.map
      (fun solution => (solution.explored, solution.value)) = .ok (2, some 1) := by
    decide +kernel
  obtain ⟨solution, hout, heq⟩ := exists_of_map_eq_ok heval
  obtain ⟨hexplored, hvalue⟩ := Prod.mk.inj heq
  exact ⟨horderly, hbest, solution, hout, hexplored, hvalue, hbest.split hout hvalue⟩

end Search

end BranchBound
