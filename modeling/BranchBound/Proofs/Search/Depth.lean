import BranchBound.Proofs.Search.Validity

/-!
# Searches over bounded variables end

If the points of the relaxations stay between zero and an upper bound, the search tree is no deeper
than the upper bounds, rounded up, add up to (`Path.depth_le`).  A bound leaves out the unit next to
it (`Bound.gap`).  The point that is split lies inside the unit that both halves leave out, and
outside those that the bounds before leave out; so the units along a path differ, and there are only
as many as the upper bounds leave room for.

A branch of depth `d` below depth `D` can lead to no more than `2 ^ (D - d) - 1` visits, and what
the open nodes can lead to shrinks with every visit (`WellFormed.ahead_visit`).  With a budget of
`2 ^ D` nodes the search is over before the budget is (`search_finite`).
-/

namespace BranchBound

variable {K : Type} [ExactScalar K] {σ : Type}

/-- Optimal points keep the bounds they were asked for, and each variable lies between zero and its
upper bound. -/
def Relaxation.Backend.StaysWithin (backend : Relaxation.Backend K σ) (upper : List K) : Prop :=
  ∀ b bounds a b', (backend.solve b bounds).outcome = .ok (a, b') → a.verdict = .optimal →
    Within bounds a.x ∧ List.Forall₂ (fun v u => 0 ≤ v ∧ v ≤ u) a.x upper

/-- A sound backend of a program whose feasible points lie below the upper bounds is one. -/
theorem Relaxation.Backend.IsSound.staysWithin {backend : Relaxation.Backend K σ}
    {p : LinearProgram K} {upper : List K} (h : backend.IsSound p)
    (hbox : ∀ x, p.Feasible x → List.Forall₂ (fun v u => 0 ≤ v ∧ v ≤ u) x upper) :
    backend.StaysWithin upper := by
  intro b bounds a b' hsolve hverdict
  obtain ⟨hfeas, hwithin, -⟩ := (h b bounds a b' hsolve).optimal hverdict
  exact ⟨hwithin, hbox a.x hfeas⟩

/-- The unit that a bound leaves out next to it: its variable, and the number where it begins. -/
def Bound.gap (b : Bound K) : ℕ × K :=
  match b.direction with
  | .upper => (b.var, b.value)
  | .lower => (b.var, b.value - 1)

/-- A point inside the unit that a bound leaves out is not admitted. -/
theorem Bound.not_admits_of_mem_gap {b : Bound K} {y : List K} (hlo : b.gap.2 < y.getD b.gap.1 0)
    (hhi : y.getD b.gap.1 0 < b.gap.2 + 1) : ¬ b.Admits y := by
  unfold gap at hlo hhi
  unfold Admits
  cases hdir : b.direction with
  | upper =>
      rw [hdir] at hlo
      exact not_le.2 hlo
  | lower =>
      rw [hdir] at hhi
      rw [sub_add_cancel] at hhi
      exact not_le.2 hhi

/-- Both halves of a split leave out the unit around the value that is split. -/
theorem Search.Branching.IsSplit.exists_gap {tol : K} {x : List K} {d : Decision K}
    (h : IsSplit tol x d) (htol : 0 ≤ tol) : ∃ z : ℤ, d.down.gap = (d.var, (z : K)) ∧
      d.up.gap = (d.var, (z : K)) ∧ (z : K) < d.value ∧ d.value < z + 1 := by
  obtain ⟨hfloor, hceil⟩ := floor_lt_and_lt_ceil (h.not_isWhole htol)
  obtain ⟨f, hf, -, hlt⟩ := ExactScalar.floor_spec d.value
  obtain ⟨c, hc, -, hlt'⟩ := ExactScalar.ceil_spec d.value
  rw [hf] at hfloor
  rw [hc] at hceil
  -- floor and ceiling of a value that is not whole are one apart
  have hc₁ : c = f + 1 := by
    have hup : (f : K) < c := hfloor.trans hceil
    have hdown : (c : K) < ((f + 2 : ℤ) : K) := by
      push_cast
      linarith
    have hup : f < c := by exact_mod_cast hup
    have hdown : c < f + 2 := by exact_mod_cast hdown
    omega
  refine ⟨f, ?_, ?_, hfloor, hlt⟩
  · rw [h.down_eq]
    show (d.var, Scalar.floor d.value) = _
    rw [hf]
  · rw [h.up_eq]
    show (d.var, Scalar.ceil d.value - 1) = _
    rw [hc, hc₁]
    push_cast
    rw [add_sub_cancel_right]

namespace Search

open Relaxation

variable {task : Task K σ} {s s' : State K σ} {n : Node K} {bounds : List (Bound K)} {depth : ℕ}

/-! ## Units along a path -/

/-- All units of variables with room for so many of them. -/
def units (sizes : List ℕ) : List (ℕ × K) :=
  sizes.zipIdx.flatMap fun r => (List.range r.1).map fun k : ℕ => (r.2, (k : K))

theorem length_units (sizes : List ℕ) : (units sizes : List (ℕ × K)).length = sizes.sum := by
  rw [units, List.length_flatMap]
  simp only [List.length_map, List.length_range]
  rw [List.zipIdx_map_fst]

theorem mem_units {sizes : List ℕ} {i m k : ℕ} (hi : sizes[i]? = some m) (hk : k < m) :
    (i, (k : K)) ∈ units sizes :=
  List.mem_flatMap.2 ⟨(m, i), List.mem_zipIdx_iff_getElem?.2 hi,
    List.mem_map.2 ⟨k, List.mem_range.2 hk, rfl⟩⟩

/-- Upper bounds that are not negative have room for so many units. -/
theorem exists_sizes {x upper : List K} (h : List.Forall₂ (fun v u => 0 ≤ v ∧ v ≤ u) x upper) :
    ∃ sizes : List ℕ, upper.map Scalar.ceil = sizes.map (Nat.cast : ℕ → K) := by
  induction h with
  | nil => exact ⟨[], rfl⟩
  | @cons v u _ _ hvu _ ih =>
      obtain ⟨sizes, hsizes⟩ := ih
      obtain ⟨c, hc, hle, -⟩ := ExactScalar.ceil_spec u
      have hpos : (0 : K) ≤ c := (hvu.1.trans hvu.2).trans hle
      have hpos : 0 ≤ c := by exact_mod_cast hpos
      obtain ⟨m, rfl⟩ := Int.eq_ofNat_of_zero_le hpos
      exact ⟨m :: sizes, by rw [List.map_cons, List.map_cons, hsizes, hc]; simp⟩

section Units

variable {upper : List K} {sizes : List ℕ} (htol : 0 ≤ task.settings.integralityTol)
  (hwithin : task.backend.StaysWithin upper)
  (hsizes : upper.map Scalar.ceil = sizes.map (Nat.cast : ℕ → K))
include htol hwithin hsizes

/-- **Both halves of a split leave out the same unit**, and no bound before leaves it out. -/
theorem Fractional.gap_new (hfrac : Fractional task n) {d : Decision K}
    (hsplit : task.split? n.x = some d) {b : Bound K} (hhalf : b = d.down ∨ b = d.up) :
    b.gap ∉ n.bounds.map Bound.gap ∧ b.gap ∈ units sizes := by
  have hd := Branching.isSplit_of_split? hsplit
  obtain ⟨z, hdown, hup, hlo, hhi⟩ := hd.exists_gap htol
  obtain ⟨c, a, c', hsolve, hverdict, hx⟩ := hfrac.answered
  obtain ⟨hin, hbox⟩ := hwithin c _ a c' hsolve hverdict
  rw [← hx] at hin hbox
  have hgap : b.gap = (d.var, (z : K)) := by
    rcases hhalf with rfl | rfl
    · exact hdown
    · exact hup
  rw [hgap]
  constructor
  · intro hmem
    obtain ⟨b', hb', hgap'⟩ := List.mem_map.1 hmem
    refine Bound.not_admits_of_mem_gap ?_ ?_ (hin b' hb')
    · rw [hgap', hd.getD_var]
      exact hlo
    · rw [hgap', hd.getD_var]
      exact hhi
  · -- the value is between zero and its upper bound, so the unit is one of those counted
    obtain ⟨hlen, hbox⟩ := List.forall₂_iff_get.1 hbox
    have hvar := hd.var_lt_length
    have hvar' : d.var < upper.length := hlen ▸ hvar
    have hvalue : n.x[d.var] = d.value := Option.some.inj
      ((List.getElem?_eq_getElem hvar).symm.trans hd.value_eq)
    obtain ⟨hzero, hle⟩ := hbox d.var hvar hvar'
    rw [List.get_eq_getElem, List.get_eq_getElem, hvalue] at hle
    rw [List.get_eq_getElem, hvalue] at hzero
    have hsize : d.var < sizes.length := by
      have := congrArg List.length hsizes
      rw [List.length_map, List.length_map] at this
      rwa [← this]
    have hceil : Scalar.ceil upper[d.var] = (sizes[d.var] : K) := by
      have := congrArg (fun l => l[d.var]?) hsizes
      simpa [List.getElem?_map, List.getElem?_eq_getElem hvar', List.getElem?_eq_getElem hsize]
        using this
    obtain ⟨u, hu, hleu, -⟩ := ExactScalar.ceil_spec upper[d.var]
    have hnonneg : (-1 : ℤ) < z := by
      have : ((-1 : ℤ) : K) < z := by
        push_cast
        linarith
      exact_mod_cast this
    obtain ⟨k, rfl⟩ := Int.eq_ofNat_of_zero_le (show 0 ≤ z by omega)
    have hk : k < sizes[d.var] := by
      have : ((k : ℤ) : K) < (sizes[d.var] : K) := by
        rw [← hceil, hu]
        exact hlo.trans_le (hle.trans hleu)
      exact_mod_cast this
    have hmem := mem_units (K := K) (List.getElem?_eq_getElem hsize) hk
    simpa using hmem

/-- **The units along a path differ**, and the depth counts them. -/
theorem Path.gaps_spec (h : Path task bounds depth) :
    bounds.length = depth ∧ (bounds.map Bound.gap).Nodup ∧
      ∀ g ∈ bounds.map Bound.gap, g ∈ units sizes := by
  induction h with
  | root => simp
  | child _ hfrac hsplit hhalf ih =>
      obtain ⟨hlen, hnodup, hsub⟩ := ih
      obtain ⟨hnew, hunit⟩ := hfrac.gap_new htol hwithin hsizes hsplit hhalf
      refine ⟨by rw [List.length_append, hlen]; rfl, ?_, ?_⟩
      · rw [List.map_append, List.map_singleton]
        exact List.concat_eq_append ▸ hnodup.concat hnew
      · rw [List.map_append, List.map_singleton]
        intro g hg
        rcases List.mem_append.1 hg with hg | hg
        · exact hsub g hg
        · rw [List.mem_singleton.1 hg]
          exact hunit

end Units

section Depth

variable {upper : List K} {D : ℕ} (htol : 0 ≤ task.settings.integralityTol)
  (hwithin : task.backend.StaysWithin upper) (hD : (upper.map Scalar.ceil).sum ≤ (D : K))
include htol hwithin hD

/-- **No path is longer than the variables have units.** -/
theorem Path.depth_le (h : Path task bounds depth) : depth ≤ D := by
  cases h with
  | root => exact Nat.zero_le D
  | child path hfrac hsplit hhalf =>
      obtain ⟨c, a, c', hsolve, hverdict, -⟩ := hfrac.answered
      obtain ⟨sizes, hsizes⟩ := exists_sizes (hwithin c _ a c' hsolve hverdict).2
      obtain ⟨hlen, hnodup, hsub⟩ :=
        (path.child hfrac hsplit hhalf).gaps_spec htol hwithin hsizes
      have hsum : sizes.sum ≤ D := by
        rw [hsizes, ← Nat.cast_list_sum] at hD
        exact_mod_cast hD
      have hlength := (hnodup.subperm hsub).length_le
      rw [List.length_map, hlen, length_units] at hlength
      exact hlength.trans hsum

/-- A node that is split is less deep: its children are one deeper. -/
theorem Path.depth_lt (h : Path task n.bounds n.depth) (hfrac : Fractional task n) :
    n.depth < D := by
  obtain ⟨d, hd⟩ := Option.ne_none_iff_exists'.1 hfrac.splits
  exact (h.child hfrac hd (.inl rfl)).depth_le htol hwithin hD

end Depth

/-! ## Visits still to come -/

section Ahead

omit [ExactScalar K]

variable {D : ℕ}

/-- Visits that a branch of this number can lead to if every branch is less deep than `D`. -/
def Tree.below (t : Tree K) (D id : ℕ) : ℕ := (t.node? id).elim 0 fun n => 2 ^ (D - n.depth) - 1

/-- Visits that the open nodes can lead to. -/
def State.ahead (s : State K σ) (D : ℕ) : ℕ :=
  (s.frontier.entries.map fun e => s.tree.below D e.id).sum

/-- A branch and both its children are one visit more than the children. -/
theorem two_pow_sub_one (h : depth < D) :
    2 ^ (D - depth) - 1 = 2 * (2 ^ (D - (depth + 1)) - 1) + 1 := by
  obtain ⟨m, rfl⟩ := Nat.exists_eq_add_of_lt h
  have hpos : 0 < 2 ^ m := Nat.two_pow_pos m
  rw [show depth + m + 1 - depth = m + 1 by omega, show depth + m + 1 - (depth + 1) = m by omega,
    pow_succ]
  omega

theorem Tree.below_eq {t : Tree K} {id : ℕ} (h : t.node? id = some n) :
    t.below D id = 2 ^ (D - n.depth) - 1 := by
  rw [below, h]
  rfl

/-- Closing a node leaves the depths as they are. -/
theorem below_close (s : State K σ) (id i : ℕ) :
    (close s id).tree.below D i = s.tree.below D i := by
  rw [Tree.below, node?_close, Tree.below]
  cases s.tree.node? i <;> rfl

theorem ahead_close (s : State K σ) (id : ℕ) : (close s id).ahead D = s.ahead D :=
  congrArg List.sum (List.map_congr_left fun e _ => below_close s id e.id)

variable [Scalar K]

/-- **A new node adds at most what it can lead to itself.** -/
theorem Adds.ahead_le (h : Adds s s' n) (hold : ∀ e ∈ s.frontier.entries, e.id < s.tree.size) :
    s'.ahead D ≤ s.ahead D + (2 ^ (D - n.depth) - 1) := by
  have hkeep : ∀ e ∈ s.frontier.entries, s'.tree.below D e.id = s.tree.below D e.id := by
    intro e he
    rw [Tree.below, h.tree_eq, Tree.node?_push_of_lt (hold e he), Tree.below]
  have hsame : (s.frontier.entries.map fun e => s'.tree.below D e.id).sum = s.ahead D := by
    rw [State.ahead, List.map_congr_left hkeep]
  have hnew : s'.tree.below D n.id = 2 ^ (D - n.depth) - 1 := by
    refine Tree.below_eq ?_
    rw [h.tree_eq, Tree.node?_push_eq_some_iff h.id_eq]
    exact .inr ⟨h.id_eq, rfl⟩
  obtain ⟨v, hv⟩ := h.frontier_eq
  unfold State.ahead at hsame ⊢
  rw [hv]
  split
  · rw [Frontier.push, List.map_cons, List.sum_cons, hsame, hnew, add_comm]
  · rw [hsame]
    exact Nat.le_add_right _ _

/-- **A visit uses up at least one of the visits still to come.** -/
theorem WellFormed.ahead_visit [PlainText K] (h : WellFormed task s)
    (hdepth : ∀ {i n}, s.tree.node? i = some n → n.kind = .branch → n.depth < D) {id : ℕ}
    {rest : Frontier K} (hpop : s.frontier.pop? = some (id, rest))
    (hvisit : (Search.visit task s id rest).outcome = .ok s') : s'.ahead D + 1 ≤ s.ahead D := by
  obtain ⟨-, -, n, hn, hkind, hex⟩ := h.visit hpop hvisit
  obtain ⟨e, rfl, hperm, -⟩ := Frontier.perm_of_pop?_eq_some hpop
  obtain ⟨hpopped, -, -, hid⟩ := h.pop (s.explored + 1) hperm
  have hpow := two_pow_sub_one (hdepth hn hkind)
  have hahead : s.ahead D = 2 ^ (D - n.depth) - 1 +
      State.ahead { s with frontier := rest, explored := s.explored + 1 } D := by
    rw [State.ahead, (hperm.map _).sum_eq, List.map_cons, List.sum_cons, Tree.below_eq hn]
    rfl
  cases hex with
  | closed =>
      rw [ahead_close]
      omega
  | kept => omega
  | split hsplit childLow addsLow childHigh addsHigh =>
      have hfrac := h.fractional hn hkind
      have hlow := hpopped.adds hn hid hfrac hsplit (.inl rfl) childLow addsLow
      have hle := addsLow.ahead_le (D := D) hpopped.id_lt_size
      have hle' := addsHigh.ahead_le (D := D) hlow.1.id_lt_size
      rw [childLow.depth_eq] at hle
      rw [childHigh.depth_eq] at hle'
      omega

/-- The root alone can lead to less than `2 ^ D` visits. -/
theorem Rooted.ahead_lt {st : Start} (h : Rooted task s st n) (D : ℕ) :
    s.explored + s.ahead D < 2 ^ D := by
  have hpos := Nat.two_pow_pos D
  rw [h.explored_eq, State.ahead]
  cases st with
  | settled =>
      rw [(h.settled rfl).1]
      exact hpos
  | growing =>
      obtain ⟨-, v, hentries⟩ := h.growing rfl
      rw [hentries, List.map_singleton, List.sum_singleton,
        Tree.below_eq (h.node?_eq_some_iff.2 ⟨rfl, rfl⟩), h.depth_eq, Nat.sub_zero]
      omega

end Ahead

/-! ## The whole search -/

omit [ExactScalar K] in
/-- No node is deeper than `D`, and branches are less deep. -/
def Tree.DepthAtMost (t : Tree K) (D : ℕ) : Prop :=
  ∀ n ∈ t.nodes, n.depth ≤ D ∧ (n.depth = D → n.kind ≠ .branch)

section Bounded

variable {upper : List K} {D : ℕ} (htol : 0 ≤ task.settings.integralityTol)
  (hwithin : task.backend.StaysWithin upper) (hD : (upper.map Scalar.ceil).sum ≤ (D : K))
include htol hwithin hD

theorem WellFormed.depth_lt (h : WellFormed task s) {i : ℕ} (hn : s.tree.node? i = some n)
    (hkind : n.kind = .branch) : n.depth < D :=
  (h.path hn).depth_lt htol hwithin hD (h.fractional hn hkind)

theorem WellFormed.depthAtMost (h : WellFormed task s) : s.tree.DepthAtMost D := by
  intro n hn
  obtain ⟨i, hi⟩ := Tree.mem_nodes_iff.1 hn
  refine ⟨(h.path hi).depth_le htol hwithin hD, ?_⟩
  intro heq hkind
  exact (h.depth_lt htol hwithin hD hi hkind).ne heq

/-- **The visits made and those still to come are less than `2 ^ D`**, wherever the search looks for
the next node and where it ends. -/
theorem explored_add_ahead_lt [PlainText K] (b : σ) :
    (∀ s, AtLoopHead task b s → WellFormed task s ∧ s.explored + s.ahead D < 2 ^ D) ∧
      ∀ s limit, (run task b).outcome = .ok (s, limit) →
        WellFormed task s ∧ s.explored + s.ahead D < 2 ^ D := by
  refine run_induction (motive := fun s => WellFormed task s ∧ s.explored + s.ahead D < 2 ^ D)
    (fun h => ⟨h.wellFormed, h.ahead_lt D⟩) fun ih hpop hvisit => ?_
  obtain ⟨hwell, hlt⟩ := ih
  have hstep := hwell.ahead_visit (hwell.depth_lt htol hwithin hD) hpop hvisit
  have hexplored := explored_of_visit hvisit
  exact ⟨(hwell.visit hpop hvisit).1, by omega⟩

end Bounded

/-- **A search over bounded variables is finite.**  If the optimal points of the backend keep their
bounds and stay between zero and the upper bounds, which rounded up add up to `D`, then whatever its
other answers are, and whatever the rule: no node is deeper than `D`, and none of that depth is a
branch; and without a time limit a budget of `2 ^ D` nodes is enough to leave no node open. -/
theorem search_finite [PlainText K] (task : Task K σ) (b : σ) (upper : List K) (D : ℕ)
    (htol : 0 ≤ task.settings.integralityTol) (hwithin : task.backend.StaysWithin upper)
    (hD : (upper.map Scalar.ceil).sum ≤ (D : K)) :
    (∀ s, AtLoopHead task b s → s.tree.DepthAtMost D) ∧
    (∀ solution, (solve task b).outcome = .ok solution →
      Tree.DepthAtMost ⟨solution.tree⟩ D) ∧
    (task.settings.timeLimit = none → 2 ^ D ≤ task.settings.maxNodes →
      (∀ s limit, (run task b).outcome = .ok (s, limit) →
        limit = none ∧ s.frontier.entries = []) ∧
      ∀ solution, (solve task b).outcome = .ok solution → solution.limit ≠ some .nodes) := by
  obtain ⟨hheads, hends⟩ := explored_add_ahead_lt htol hwithin hD b
  refine ⟨fun s hs => (hheads s hs).1.depthAtMost htol hwithin hD, ?_, ?_⟩
  · intro solution hsolve
    obtain ⟨s, limit, hrun, rfl⟩ := solve_eq_ok_iff.1 hsolve
    exact (hends s limit hrun).1.depthAtMost htol hwithin hD
  · intro htime hbudget
    have hdone : ∀ s limit, (run task b).outcome = .ok (s, limit) →
        limit = none ∧ s.frontier.entries = [] := by
      intro s limit hrun
      obtain ⟨hstart, rfl⟩ | ⟨hs, hstops⟩ := run_cases hrun
      · obtain ⟨n, hroot⟩ := start_cases hstart
        exact ⟨rfl, (hroot.settled rfl).1⟩
      · cases hstops with
        | exhausted hentries => exact ⟨rfl, hentries⟩
        | budget hspent _ =>
            have hlt := (hheads s hs).2
            omega
        | late hl =>
            rw [htime] at hl
            cases hl
    refine ⟨hdone, fun solution hsolve => ?_⟩
    obtain ⟨s, limit, hrun, rfl⟩ := solve_eq_ok_iff.1 hsolve
    obtain ⟨rfl, -⟩ := hdone s limit hrun
    show (if s.stallIsOpen then some Limit.pivots else none) ≠ some .nodes
    split <;> simp

/-- Both variables of `halves` are at most `3/2`, so its tree has at most four levels below the
root; it has two, and a budget of a hundred nodes is enough. -/
theorem halves_search_finite :
    (0 : ℚ) ≤ halvesSettings.integralityTol ∧
    (simplexBackend halvesSettings.linear halves.relaxation).StaysWithin [3 / 2, 3 / 2] ∧
    (([3 / 2, 3 / 2] : List ℚ).map Scalar.ceil).sum ≤ ((4 : ℕ) : ℚ) ∧
    halvesSettings.timeLimit = none ∧ 2 ^ 4 ≤ halvesSettings.maxNodes ∧
    (∀ s, AtLoopHead (halves.task halvesSettings fun _ => 0) 0 s → s.tree.DepthAtMost 4) ∧
    ∃ solution, (solve (halves.task halvesSettings fun _ => 0) 0).outcome = .ok solution ∧
      solution.tree.map Node.depth = [0, 1, 1, 2, 2] ∧ Tree.DepthAtMost ⟨solution.tree⟩ 4 ∧
        solution.limit ≠ some .nodes := by
  have hwithin : (simplexBackend halvesSettings.linear halves.relaxation).StaysWithin
      [3 / 2, 3 / 2] := by
    refine (simplexBackend_isSound ((halves.relaxation.check_eq_ok_iff).1 rfl)
      (LinearProgram.Settings.isExact_exact .dantzig 100)).staysWithin fun x hx => ?_
    obtain ⟨u, v, rfl⟩ := List.length_eq_two.1 hx.length_eq
    have hu := hx.nonneg u (by simp)
    have hv := hx.nonneg v (by simp)
    have hrow : Scalar.dot [2, 2] [u, v] ≤ 3 := hx.le_limit ([2, 2], 3) List.mem_cons_self
    rw [dot_eq_combination, combination_cons, combination_cons, combination_nil] at hrow
    have hrow : 2 * u + (2 * v + 0) ≤ 3 := hrow
    exact .cons ⟨hu, by linarith⟩ (.cons ⟨hv, by linarith⟩ .nil)
  have hsum : (([3 / 2, 3 / 2] : List ℚ).map Scalar.ceil).sum ≤ ((4 : ℕ) : ℚ) := by
    decide +kernel
  obtain ⟨hheads, hresult, hbudget⟩ :=
    search_finite (halves.task halvesSettings fun _ => 0) 0 _ 4 le_rfl hwithin hsum
  have heval : (solve (halves.task halvesSettings fun _ => 0) 0).outcome.map
      (fun solution => solution.tree.map Node.depth) = .ok [0, 1, 1, 2, 2] := by
    decide +kernel
  obtain ⟨solution, hout, hdepths⟩ := exists_of_map_eq_ok heval
  exact ⟨le_rfl, hwithin, hsum, rfl, by decide, hheads, solution, hout, hdepths,
    hresult solution hout, (hbudget rfl (by decide)).2 solution hout⟩

end Search

end BranchBound
