import BranchBound.Proofs.Search.Validity

/-!
# The leaves divide the points of whole numbers

Between two visits, and in the tree of the result, every point of whole numbers lies within the
bounds of exactly one leaf (`Divides.leaf`): the two halves of a split share the points of the node
that was split, and the point of its own relaxation is in neither.  The bounds of a node are bounds
on variables of the program, so they can be added to it as rows.

Of the backend only the lengths of its optimal points are used, so this holds however wrong its
answers are.
-/

namespace BranchBound

variable {K : Type} [ExactScalar K] {σ : Type}

/-- Optimal answers have one entry per variable. -/
def Relaxation.Backend.AnswersIn (backend : Relaxation.Backend K σ) (n : ℕ) : Prop :=
  ∀ b bounds a b', (backend.solve b bounds).outcome = .ok (a, b') → a.verdict = .optimal →
    a.x.length = n

/-- The optimal points of a sound backend are feasible, so they have the right length. -/
theorem Relaxation.Backend.IsSound.answersIn {backend : Relaxation.Backend K σ}
    {p : LinearProgram K} (h : backend.IsSound p) : backend.AnswersIn p.numVars := by
  intro b bounds a b' hsolve hverdict
  exact ((h b bounds a b' hsolve).optimal hverdict).1.length_eq

namespace Search

open Relaxation

/-! ## Points and leaves -/

/-- A point of whole numbers with one entry per variable. -/
structure WholePoint (n : ℕ) (y : List K) : Prop where
  length_eq : y.length = n
  whole : ∀ v ∈ y, IsWhole v

/-- The number of a leaf whose bounds admit the point. -/
def Tree.LeafOf (t : Tree K) (y : List K) (id : ℕ) : Prop :=
  t.IsLeaf id ∧ ∃ n, t.node? id = some n ∧ Within n.bounds y

omit [ExactScalar K] in
/-- The children of a node are `first` and the node after it. -/
structure Tree.TwoChildren (t : Tree K) (id first : ℕ) : Prop where
  exists_first : ∃ n, t.node? first = some n
  exists_second : ∃ n, t.node? (first + 1) = some n
  parent_iff : ∀ {i n}, t.node? i = some n → (n.parent = some id ↔ i = first ∨ i = first + 1)

/-- The leaves of a tree divide the points of whole numbers, and its branchings are splits. -/
structure Divides (p : IntegerProgram K) (t : Tree K) : Prop where
  /-- Every point of whole numbers lies within the bounds of exactly one leaf. -/
  leaf : ∀ y, WholePoint p.numVars y → ∃! id, t.LeafOf y id
  /-- A node has no children, or two. -/
  binary : ∀ {id n}, t.node? id = some n → t.IsLeaf id ∨ ∃ first, t.TwoChildren id first
  /-- A child has one more bound than its parent, and that bound cuts off the parent's point. -/
  cutOff : ∀ {id n}, t.node? id = some n → ∀ c ∈ t.nodes, c.parent = some id →
    ∃ b, c.bounds = n.bounds ++ [b] ∧ ¬ b.Admits n.x
  /-- The bounds of a node become rows after those of the program, and these admit the points that
  the bounds admit. -/
  rows : ∀ n ∈ t.nodes, ∃ added : List (List K × K), added.length = n.bounds.length ∧
    withBounds p.relaxation n.bounds = .ok { p.relaxation with
      rows := p.relaxation.rows ++ added.map Prod.fst
      limits := p.relaxation.limits ++ added.map Prod.snd } ∧
    ∀ y, Within n.bounds y ↔ ∀ r ∈ added, Scalar.dot r.1 y ≤ r.2

/-! ## One visit -/

variable {task : Task K σ} {s s' : State K σ} {n low high : Node K} {d : Decision K} {id i : ℕ}
  {y : List K}

theorem leafOf_close_iff : (close s id).tree.LeafOf y i ↔ s.tree.LeafOf y i := by
  simp only [Tree.LeafOf, isLeaf_close]
  refine and_congr_right fun _ => ⟨?_, ?_⟩
  · rintro ⟨m, hm, hy⟩
    obtain ⟨n, hn, rfl⟩ := exists_of_node?_close hm
    exact ⟨n, hn, hy⟩
  · rintro ⟨n, hn, hy⟩
    exact ⟨_, node?_close_of_eq hn id, hy⟩

omit [ExactScalar K] in
theorem twoChildren_close {first : ℕ} (h : s.tree.TwoChildren i first) :
    (close s id).tree.TwoChildren i first := by
  obtain ⟨⟨n, hn⟩, ⟨m, hm⟩, hparent⟩ := h
  refine ⟨?_, ?_, ?_⟩
  · exact ⟨_, node?_close_of_eq hn id⟩
  · exact ⟨_, node?_close_of_eq hm id⟩
  · intro j c hc
    obtain ⟨c', hc', rfl⟩ := exists_of_node?_close hc
    have hiff := hparent hc'
    exact hiff

/-- The tree after a split: `low` and `high` are the children of the node with number `id`. -/
structure SplitAt (s s' : State K σ) (id : ℕ) (n : Node K) (d : Decision K) (low high : Node K) :
    Prop where
  node?_iff : ∀ {i m}, s'.tree.node? i = some m ↔ s.tree.node? i = some m ∨
    i = s.tree.size ∧ m = low ∨ i = s.tree.size + 1 ∧ m = high
  isLeaf_iff : ∀ {i}, s'.tree.IsLeaf i ↔ s.tree.IsLeaf i ∧ i ≠ id
  low_parent : low.parent = some id
  high_parent : high.parent = some id
  low_bounds : low.bounds = n.bounds ++ [d.down]
  high_bounds : high.bounds = n.bounds ++ [d.up]

theorem splitAt_of_adds (h : WellFormed task s) (hn : s.tree.node? id = some n)
    {s₁ : State K σ} (childLow : ChildOf task n d.down low) (addsLow : Adds s s₁ low)
    (childHigh : ChildOf task n d.up high) (addsHigh : Adds s₁ s' high) :
    SplitAt s s' id n d low high where
  node?_iff := by
    intro i m
    have hsize : s₁.tree.size = s.tree.size + 1 := by rw [addsLow.tree_eq, Tree.size_push]
    rw [addsHigh.tree_eq, Tree.node?_push_eq_some_iff addsHigh.id_eq, addsLow.tree_eq,
      Tree.node?_push_eq_some_iff addsLow.id_eq, Tree.size_push, or_assoc]
  isLeaf_iff := by
    intro i
    rw [addsHigh.tree_eq, Tree.isLeaf_push_iff, addsLow.tree_eq, Tree.isLeaf_push_iff,
      childLow.parent_eq, childHigh.parent_eq, h.id_eq hn]
    simp [eq_comm]
  low_parent := by rw [childLow.parent_eq, h.id_eq hn]
  high_parent := by rw [childHigh.parent_eq, h.id_eq hn]
  low_bounds := childLow.bounds_eq
  high_bounds := childHigh.bounds_eq

namespace SplitAt

variable (h : SplitAt s s' id n d low high) (hwell : WellFormed task s)
  (hn : s.tree.node? id = some n)
include h hwell hn

/-- **A split replaces one leaf by its two halves.** -/
theorem leafOf_iff : s'.tree.LeafOf y i ↔ s.tree.LeafOf y i ∧ i ≠ id ∨
    i = s.tree.size ∧ Within n.bounds y ∧ d.down.Admits y ∨
      i = s.tree.size + 1 ∧ Within n.bounds y ∧ d.up.Admits y := by
  have hlt := Tree.lt_size_of_node? hn
  simp only [Tree.LeafOf, h.isLeaf_iff, h.node?_iff]
  constructor
  · rintro ⟨⟨hleaf, hne⟩, m, hm | ⟨rfl, rfl⟩ | ⟨rfl, rfl⟩, hy⟩
    · exact .inl ⟨⟨hleaf, m, hm, hy⟩, hne⟩
    · rw [h.low_bounds, within_append_singleton] at hy
      exact .inr (.inl ⟨rfl, hy⟩)
    · rw [h.high_bounds, within_append_singleton] at hy
      exact .inr (.inr ⟨rfl, hy⟩)
  · rintro (⟨⟨hleaf, m, hm, hy⟩, hne⟩ | ⟨rfl, hy⟩ | ⟨rfl, hy⟩)
    · exact ⟨⟨hleaf, hne⟩, m, .inl hm, hy⟩
    · refine ⟨⟨hwell.isLeaf_of_size_le le_rfl, hlt.ne'⟩, low, .inr (.inl ⟨rfl, rfl⟩), ?_⟩
      rwa [h.low_bounds, within_append_singleton]
    · refine ⟨⟨hwell.isLeaf_of_size_le (Nat.le_succ _), by omega⟩, high,
        .inr (.inr ⟨rfl, rfl⟩), ?_⟩
      rwa [h.high_bounds, within_append_singleton]

/-- **A point stays in exactly one leaf** if it lies in exactly one half of the split. -/
theorem existsUnique_leafOf (hleaf : s.tree.IsLeaf id) (hcover : d.down.Admits y ∨ d.up.Admits y)
    (hdisjoint : ¬ (d.down.Admits y ∧ d.up.Admits y)) (hy : ∃! i, s.tree.LeafOf y i) :
    ∃! i, s'.tree.LeafOf y i := by
  obtain ⟨l, hl, hunique⟩ := hy
  by_cases hin : Within n.bounds y
  · -- the leaf of the point is the node that is split
    obtain rfl : id = l := hunique id ⟨hleaf, n, hn, hin⟩
    rcases hcover with hdown | hup
    · refine ⟨s.tree.size, (h.leafOf_iff hwell hn).2 (.inr (.inl ⟨rfl, hin, hdown⟩)), ?_⟩
      intro j hj
      obtain ⟨hj, hne⟩ | ⟨rfl, -⟩ | ⟨-, -, hup⟩ := (h.leafOf_iff hwell hn).1 hj
      · exact absurd (hunique j hj) hne
      · rfl
      · exact absurd ⟨hdown, hup⟩ hdisjoint
    · refine ⟨s.tree.size + 1, (h.leafOf_iff hwell hn).2 (.inr (.inr ⟨rfl, hin, hup⟩)), ?_⟩
      intro j hj
      obtain ⟨hj, hne⟩ | ⟨-, -, hdown⟩ | ⟨rfl, -⟩ := (h.leafOf_iff hwell hn).1 hj
      · exact absurd (hunique j hj) hne
      · exact absurd ⟨hdown, hup⟩ hdisjoint
      · rfl
  · have hne : l ≠ id := by
      rintro rfl
      obtain ⟨-, m, hm, hy⟩ := hl
      obtain rfl := Option.some.inj (hn.symm.trans hm)
      exact hin hy
    refine ⟨l, (h.leafOf_iff hwell hn).2 (.inl ⟨hl, hne⟩), ?_⟩
    intro j hj
    obtain ⟨hj, -⟩ | ⟨-, hy, -⟩ | ⟨-, hy, -⟩ := (h.leafOf_iff hwell hn).1 hj
    · exact hunique j hj
    · exact absurd hy hin
    · exact absurd hy hin

/-- The node that is split gets two children, and the other nodes keep theirs. -/
theorem binary {m : Node K} (hleaf : s.tree.IsLeaf id)
    (hbinary : ∀ {j m}, s.tree.node? j = some m →
      s.tree.IsLeaf j ∨ ∃ first, s.tree.TwoChildren j first)
    (hm : s'.tree.node? i = some m) :
    s'.tree.IsLeaf i ∨ ∃ first, s'.tree.TwoChildren i first := by
  have hlt := Tree.lt_size_of_node? hn
  obtain hm | hnew := h.node?_iff.1 hm
  · by_cases hi : i = id
    · subst hi
      refine .inr ⟨s.tree.size, ⟨low, h.node?_iff.2 (.inr (.inl ⟨rfl, rfl⟩))⟩,
        ⟨high, h.node?_iff.2 (.inr (.inr ⟨rfl, rfl⟩))⟩, fun {j c} hc => ?_⟩
      obtain hc | ⟨rfl, rfl⟩ | ⟨rfl, rfl⟩ := h.node?_iff.1 hc
      · have hne := hleaf c (Tree.mem_nodes_iff.2 ⟨j, hc⟩)
        have hj := Tree.lt_size_of_node? hc
        exact iff_of_false hne (by omega)
      · exact iff_of_true h.low_parent (.inl rfl)
      · exact iff_of_true h.high_parent (.inr rfl)
    · obtain hl | ⟨first, ⟨a, ha⟩, ⟨b, hb⟩, hparent⟩ := hbinary hm
      · exact .inl (h.isLeaf_iff.2 ⟨hl, hi⟩)
      · refine .inr ⟨first, ⟨a, h.node?_iff.2 (.inl ha)⟩, ⟨b, h.node?_iff.2 (.inl hb)⟩,
          fun {j c} hc => ?_⟩
        have hfirst := Tree.lt_size_of_node? hb
        obtain hc | ⟨rfl, rfl⟩ | ⟨rfl, rfl⟩ := h.node?_iff.1 hc
        · exact hparent hc
        · rw [h.low_parent]
          exact iff_of_false (by simpa using Ne.symm hi) (by omega)
        · rw [h.high_parent]
          exact iff_of_false (by simpa using Ne.symm hi) (by omega)
  · have hi : s.tree.size ≤ i := by omega
    exact .inl (h.isLeaf_iff.2 ⟨hwell.isLeaf_of_size_le hi, by omega⟩)

end SplitAt

/-! ## The whole search -/

/-- What a visit keeps of the leaves: each point is in exactly one, and nodes have no children or
two. -/
structure Shared (s : State K σ) : Prop where
  leaf : ∀ y : List K, (∀ v ∈ y, IsWhole v) → ∃! id, s.tree.LeafOf y id
  binary : ∀ {id n}, s.tree.node? id = some n →
    s.tree.IsLeaf id ∨ ∃ first, s.tree.TwoChildren id first

/-- The root alone shares out the points. -/
theorem Rooted.shared {st : Start} (h : Rooted task s st n) : Shared s where
  leaf y _ := by
    refine ⟨0, ⟨h.isLeaf 0, n, h.node?_eq_some_iff.2 ⟨rfl, rfl⟩, ?_⟩, ?_⟩
    · rw [h.bounds_eq]
      exact within_nil y
    · rintro i ⟨-, m, hm, -⟩
      exact (h.node?_eq_some_iff.1 hm).1
  binary _ := .inl (h.isLeaf _)

/-- **A visit keeps every point in exactly one leaf.** -/
theorem Shared.visit [PlainText K] (htol : 0 ≤ task.settings.integralityTol)
    (hwell : WellFormed task s) (h : Shared s) {rest : Frontier K}
    (hpop : s.frontier.pop? = some (id, rest)) (hvisit : (visit task s id rest).outcome = .ok s') :
    Shared s' := by
  obtain ⟨-, hleaf, n, hn, -, hex⟩ := hwell.visit hpop hvisit
  cases hex with
  | closed =>
      refine ⟨fun y hy => ?_, fun {i m} hm => ?_⟩
      · simp only [leafOf_close_iff]
        exact h.leaf y hy
      · obtain ⟨c, hc, -⟩ := exists_of_node?_close hm
        obtain hl | ⟨first, htwo⟩ := h.binary hc
        · exact .inl (isLeaf_close.2 hl)
        · exact .inr ⟨first, twoChildren_close htwo⟩
  | kept => exact ⟨h.leaf, h.binary⟩
  | split hsplit childLow addsLow childHigh addsHigh =>
      -- taking the node out of the frontier has not touched the tree
      have hpopped : WellFormed task { s with frontier := rest, explored := s.explored + 1 } := by
        obtain ⟨e, -, hperm, -⟩ := Frontier.perm_of_pop?_eq_some hpop
        exact (hwell.pop (s.explored + 1) hperm).1
      have hat := splitAt_of_adds hpopped hn childLow addsLow childHigh addsHigh
      have hd := Branching.isSplit_of_split? hsplit
      refine ⟨fun y hy => ?_, fun hm => hat.binary hpopped hn hleaf h.binary hm⟩
      exact hat.existsUnique_leafOf hpopped hn hleaf (Branching.mem_half_of_whole hsplit hy)
        (hd.not_both htol y) (h.leaf y hy)

/-- The bounds on the way to a node are bounds on variables of the program. -/
theorem Path.var_lt {m depth : ℕ} {bounds : List (Bound K)}
    (hlength : task.backend.AnswersIn m) (h : Path task bounds depth) :
    ∀ b ∈ bounds, b.var < m := by
  induction h with
  | root => simp
  | @child p d b _ hfrac hsplit hhalf ih =>
      have hd := Branching.isSplit_of_split? hsplit
      obtain ⟨c, a, c', hsolve, hverdict, hx⟩ := hfrac.answered
      have hlt : d.var < m := by
        rw [← hlength c _ a c' hsolve hverdict, ← hx]
        exact hd.var_lt_length
      intro b' hb'
      rcases List.mem_append.1 hb' with hb' | hb'
      · exact ih b' hb'
      · obtain rfl := List.mem_singleton.1 hb'
        rcases hhalf with rfl | rfl
        · rw [hd.down_eq]
          exact hlt
        · rw [hd.up_eq]
          exact hlt

/-- A well-formed state that shares out the points divides them. -/
theorem Shared.divides {p : IntegerProgram K} (htol : 0 ≤ task.settings.integralityTol)
    (hlength : task.backend.AnswersIn p.numVars) (hwell : WellFormed task s)
    (h : Shared s) : Divides p s.tree where
  leaf y hy := h.leaf y hy.whole
  binary := h.binary
  cutOff := by
    intro id n hn c hc hparent
    obtain ⟨i, hi⟩ := Tree.mem_nodes_iff.1 hc
    obtain ⟨q, hq, -, d, b, hsplit, hhalf, hbounds⟩ := hwell.parent hi hparent
    obtain rfl := Option.some.inj (hn.symm.trans hq)
    obtain ⟨hdown, hup⟩ := (Branching.isSplit_of_split? hsplit).not_admits htol
    refine ⟨b, hbounds, ?_⟩
    rcases hhalf with rfl | rfl
    · exact hdown
    · exact hup
  rows n hn := by
    obtain ⟨i, hi⟩ := Tree.mem_nodes_iff.1 hn
    exact withBounds_eq_ok ((hwell.path hi).var_lt hlength)

/-- **The leaves divide the points of whole numbers.**  Whatever the backend answers, as long as its
optimal points have one entry per variable, and whatever the rule and the limits: wherever the
search looks for the next node, and in the tree of its result, every point of whole numbers lies
within the bounds of exactly one leaf, the point of a branching lies in neither of its children, and
the bounds of a node say as rows what they say as bounds. -/
theorem leaves_divide [PlainText K] (backend : Backend K σ) (p : IntegerProgram K)
    (settings : Settings K) (clock : Clock) (b : σ) (htol : 0 ≤ settings.integralityTol)
    (hlength : backend.AnswersIn p.numVars) :
    (∀ s, AtLoopHead (.ofProgram backend p settings clock) b s → Divides p s.tree) ∧
    ∀ solution, (solve (.ofProgram backend p settings clock) b).outcome = .ok solution →
      Divides p ⟨solution.tree⟩ := by
  obtain ⟨hheads, hends⟩ := run_induction (b := b)
    (motive := fun s => WellFormed (.ofProgram backend p settings clock) s ∧ Shared s)
    (fun h => ⟨h.wellFormed, h.shared⟩)
    (fun ih hpop hvisit =>
      ⟨(ih.1.visit hpop hvisit).1, ih.2.visit htol ih.1 hpop hvisit⟩)
  refine ⟨fun s hs => ?_, fun solution hsolve => ?_⟩
  · obtain ⟨hwell, hshared⟩ := hheads s hs
    exact hshared.divides htol hlength hwell
  · obtain ⟨s, limit, hrun, rfl⟩ := solve_eq_ok_iff.1 hsolve
    obtain ⟨hwell, hshared⟩ := hends s limit hrun
    exact hshared.divides htol hlength hwell

/-- The search of `halves` by the simplex method splits twice, so its tree has three leaves. -/
theorem halves_leaves_divide :
    (0 : ℚ) ≤ halvesSettings.integralityTol ∧
    (simplexBackend halvesSettings.linear halves.relaxation).AnswersIn halves.numVars ∧
    (∀ s, AtLoopHead (halves.task halvesSettings fun _ => 0) 0 s → Divides halves s.tree) ∧
    ∃ solution, (solve (halves.task halvesSettings fun _ => 0) 0).outcome = .ok solution ∧
      solution.tree.map Node.parent = [none, some 0, some 0, some 1, some 1] ∧
        Divides halves ⟨solution.tree⟩ := by
  have hlength : (simplexBackend halvesSettings.linear halves.relaxation).AnswersIn
      halves.numVars :=
    (simplexBackend_isSound ((halves.relaxation.check_eq_ok_iff).1 rfl)
      (LinearProgram.Settings.isExact_exact .dantzig 100)).answersIn
  obtain ⟨hheads, hresult⟩ := leaves_divide _ halves halvesSettings (fun _ => 0) 0 le_rfl hlength
  have heval : (solve (halves.task halvesSettings fun _ => 0) 0).outcome.map
      (fun solution => solution.tree.map Node.parent) =
        .ok [none, some 0, some 0, some 1, some 1] := by
    decide +kernel
  obtain ⟨solution, hout, hparents⟩ := exists_of_map_eq_ok heval
  exact ⟨le_rfl, hlength, hheads, solution, hout, hparents, hresult solution hout⟩

end Search

end BranchBound
