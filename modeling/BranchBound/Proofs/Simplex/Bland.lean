import BranchBound.Proofs.Simplex.Cycling
import BranchBound.Proofs.Tableau.Optimality

/-!
# The lowest-index rule does not cycle

The rule that takes the first improving column fixes which column enters.  What keeps a run from
going round is that in addition, of the rows that limit the entering column alike, the one with the
lowest basic column leaves.  The ratio test takes the first of these rows instead, and
`BreaksTie` says of a tableau that this makes a difference.

Round a cycle nothing moves: every ratio is zero and the basic point stays (`Cycle.basicPoint_eq`).
Let `q` be the highest column that enters in it.  Where `q` enters, no lower column improves; where
`q` leaves, some lower column `s` enters.  The objective of the first tableau, evaluated along the
direction of `s` in the second, then has a negative term, and that term belongs to a row that ties
with the one of `q` and has a lower basic column (`Cycle.exists_breaksTie`).  So a run that breaks
ties only finitely often ends, and one that ends does so trivially (`halts_iff_breaksTie_finite`).
-/

namespace BranchBound

variable {K : Type} [ExactScalar K]

namespace Simplex

open Tableau

variable {settings : LinearProgram.Settings K} {candidates : ℕ} {t t' : Tableau K}

/-- The leaving row ties with a row that has a lower basic column. -/
def BreaksTie (settings : LinearProgram.Settings K) (candidates : ℕ) (t : Tableau K) : Prop :=
  ∃ row col p, nextMove settings candidates t = .ok (.pivot row col) ∧ t.rows[row]? = some p ∧
    ∃ r ∈ t.rows, 0 < r.line.coef col ∧ r.ratio col = p.ratio col ∧ r.basic < p.basic

/-! ## What a step does to the basis -/

/-- The column enters at this tableau. -/
def Enters (settings : LinearProgram.Settings K) (candidates : ℕ) (t : Tableau K) (col : ℕ) :
    Prop :=
  ∃ row, nextMove settings candidates t = .ok (.pivot row col)

/-- A column that is basic after a step was so before, or it has entered. -/
theorem Step.basic_or_enters (h : Step settings candidates t t') {j : ℕ} (hj : j ∈ t'.basis) :
    j ∈ t.basis ∨ Enters settings candidates t j := by
  obtain ⟨row, col, hmove, hpivot⟩ := h
  rw [basis_of_pivot_eq_ok hpivot] at hj
  rcases List.mem_or_eq_of_mem_set hj with hmem | rfl
  · exact .inl hmem
  · exact .inr ⟨row, hmove⟩

/-! ## Cycles -/

/-- A run that goes round with some period. -/
structure Cycle (settings : LinearProgram.Settings K) (candidates period : ℕ)
    (run : ℕ → Tableau K) : Prop where
  pos : 0 < period
  endless : Endless settings candidates run
  periodic : ∀ k, run (k + period) = run k
  proper : ∀ k, (run k).Proper
  equivalent : ∀ k, (run 0).Equivalent (run k)
  le_numCols : ∀ k, candidates ≤ (run k).numCols

namespace Cycle

variable {period : ℕ} {run : ℕ → Tableau K} (hs : settings.IsExact)
  (h : Cycle settings candidates period run)
include hs h

omit hs in
theorem periodic_mul (k n : ℕ) : run (k + n * period) = run k := by
  induction n with
  | zero => rw [Nat.zero_mul, Nat.add_zero]
  | succ n ih => rw [Nat.succ_mul, ← Nat.add_assoc, h.periodic, ih]

/-- The constant of the objective stays the same. -/
theorem constant_eq (k : ℕ) : (run k).constant = (run 0).constant := by
  have hmono : Monotone fun k => (run k).constant :=
    monotone_nat_of_le_succ fun k => (h.endless k).constant_le hs (h.proper k) (h.le_numCols k)
  have hle : k ≤ 0 + k * period := by
    rw [Nat.zero_add]
    exact Nat.le_mul_of_pos_right k h.pos
  refine le_antisymm ?_ (hmono (Nat.zero_le k))
  calc (run k).constant ≤ (run (0 + k * period)).constant := hmono hle
    _ = (run 0).constant := by rw [h.periodic_mul]

/-- Every pivot is on a row of right-hand side zero. -/
theorem exists_pivot (k : ℕ) :
    ∃ row col p, nextMove settings candidates (run k) = .ok (.pivot row col) ∧
      (run k).Entering settings.pivotRule candidates 0 col ∧ (run k).Leaving 0 row col p ∧
      run (k + 1) = (run k).pivoted row col p ∧ p.line.rhs = 0 := by
  obtain ⟨row, col, p, hmove, hent, hleave, hnext⟩ :=
    (step_iff hs (h.proper k).canonical (h.le_numCols k)).1 (h.endless k)
  refine ⟨row, col, p, hmove, hent, hleave, hnext, ?_⟩
  have hconst : (run k).constant - (run k).objective.coef col * p.ratio col = (run k).constant := by
    rw [← constant_pivoted, ← hnext, h.constant_eq hs (k + 1), h.constant_eq hs k]
  have hratio : p.ratio col = 0 := by
    rw [sub_eq_self] at hconst
    exact (mul_eq_zero.1 hconst).resolve_left hent.cost_neg.ne
  unfold TableauRow.ratio at hratio
  exact (div_eq_zero_iff.1 hratio).resolve_right hleave.lt_entry.ne'

/-- **Round a cycle the basic point stays.** -/
theorem basicPoint_eq (k : ℕ) : (run k).basicPoint = (run 0).basicPoint := by
  induction k with
  | zero => rfl
  | succ k ih =>
      obtain ⟨row, col, p, -, -, hleave, hnext, hrhs⟩ := h.exists_pivot hs k
      have hc := (h.proper k).canonical
      have hequiv := (h.endless k).equivalent hs.pivotTol_eq.ge hc (h.le_numCols k)
      have hsolves := (hequiv.solves_iff _).2 hc.solves_basicPoint
      rw [← ih]
      refine ((h.proper (k + 1)).canonical.eq_basicPoint hsolves fun j hj => ?_).symm
      by_cases hold : ∃ r ∈ (run k).rows, r.basic = j
      · -- only the pivot row has lost its basic column, and its right-hand side is zero
        obtain ⟨r, hr, rfl⟩ := hold
        rw [← not_mem_basis_iff, hnext] at hj
        rw [hc.basicPoint_basic hr, eq_of_not_mem_basis_pivoted hleave.get hr hj, hrhs]
      · exact basicPoint_of_not_basic fun r hr hrj => hold ⟨r, hr, hrj⟩

/-- A column that is basic at one place of a cycle and not at another has the value zero. -/
theorem rhs_eq_zero {k m : ℕ} {r : TableauRow K} (hr : r ∈ (run m).rows)
    (hout : r.basic ∉ (run k).basis) : r.line.rhs = 0 := by
  rw [← (h.proper m).canonical.basicPoint_basic hr, h.basicPoint_eq hs, ← h.basicPoint_eq hs k]
  exact basicPoint_of_not_basic (not_mem_basis_iff.1 hout)

omit hs in
/-- A column that is basic later on but not at first has entered. -/
theorem exists_enters {j m k : ℕ} (hkm : k ≤ m) (hout : j ∉ (run k).basis)
    (hin : j ∈ (run m).basis) : ∃ i, Enters settings candidates (run i) j := by
  induction m, hkm using Nat.le_induction with
  | base => exact absurd hin hout
  | succ m _ ih =>
      rcases (h.endless m).basic_or_enters hin with hmem | hent
      · exact ih hmem
      · exact ⟨m, hent⟩

omit hs in
/-- A column that enters at some place leaves at a later one. -/
theorem exists_leaves {j k : ℕ} (hin : j ∈ (run (k + 1)).basis) (hout : j ∉ (run k).basis) :
    ∃ m, k ≤ m ∧ j ∈ (run m).basis ∧ j ∉ (run (m + 1)).basis := by
  by_contra hno
  push Not at hno
  have hstay : ∀ n, j ∈ (run (k + 1 + n)).basis := by
    intro n
    induction n with
    | zero => exact hin
    | succ n ih => exact hno (k + 1 + n) (by omega) ih
  have := hstay (period - 1)
  have hpos := h.pos
  rw [show k + 1 + (period - 1) = k + period by omega, h.periodic] at this
  exact hout this

/-- There is a highest column among those that enter. -/
theorem exists_highest : ∃ q k, Enters settings candidates (run k) q ∧
    ∀ j i, Enters settings candidates (run i) j → j ≤ q := by
  have hlt : ∀ j i, Enters settings candidates (run i) j → j < candidates := by
    rintro j i ⟨row, hmove⟩
    obtain ⟨row', col, p, hmove', hent, -⟩ := h.exists_pivot hs i
    obtain ⟨-, rfl⟩ : row = row' ∧ j = col := by simpa using hmove.symm.trans hmove'
    exact hent.lt_limit
  have hfin : {j | ∃ i, Enters settings candidates (run i) j}.Finite :=
    (Set.finite_Iio candidates).subset fun j hj => hj.elim (hlt j)
  have hne : {j | ∃ i, Enters settings candidates (run i) j}.Nonempty := by
    obtain ⟨row, col, p, hmove, -⟩ := h.exists_pivot hs 0
    exact ⟨col, 0, row, hmove⟩
  obtain ⟨q, ⟨k, hk⟩, hmax⟩ := Set.exists_max_image _ id hfin hne
  exact ⟨q, k, hk, fun j i hi => hmax j ⟨i, hi⟩⟩

/-- The highest column that enters: where it does, it improves and no lower column does. -/
theorem exists_entry (hrule : settings.pivotRule = .firstProfitable) :
    ∃ q k, (run k).objective.coef q < 0 ∧ (∀ j < q, 0 ≤ (run k).objective.coef j) ∧
      q ∈ (run (k + 1)).basis ∧ ∀ j i, Enters settings candidates (run i) j → j ≤ q := by
  obtain ⟨q, k, ⟨row₀, hmove₀⟩, hmax⟩ := h.exists_highest hs
  obtain ⟨row, col, p, hmove, hent, hleave, hnext, -⟩ := h.exists_pivot hs k
  obtain ⟨rfl, rfl⟩ : row₀ = row ∧ q = col := by simpa using hmove₀.symm.trans hmove
  refine ⟨q, k, hent.cost_neg, by simpa using hent.first hrule, ?_, hmax⟩
  rw [hnext]
  exact mem_basis_pivoted hleave.get

/-- Where the highest column leaves, a lower one enters. -/
theorem exists_exit {q k : ℕ} (hin : q ∈ (run (k + 1)).basis) (hout : q ∉ (run k).basis)
    (hmax : ∀ j i, Enters settings candidates (run i) j → j ≤ q) :
    ∃ m row s p, k ≤ m ∧ nextMove settings candidates (run m) = .ok (.pivot row s) ∧
      (run m).Leaving 0 row s p ∧ (run m).objective.coef s < 0 ∧ p.basic = q ∧ p.line.rhs = 0 ∧
        s < q := by
  obtain ⟨m, hkm, hqin, hqout⟩ := h.exists_leaves hin hout
  obtain ⟨row, s, p, hmove, hent, hleave, hnext, hrhs⟩ := h.exists_pivot hs m
  have hcost := hent.cost_neg
  have hpq : p.basic = q := by
    obtain ⟨r, hr, rfl⟩ := mem_basis_iff.1 hqin
    rw [hnext] at hqout
    rw [eq_of_not_mem_basis_pivoted hleave.get hr hqout]
  have hne : p.basic ≠ s :=
    (h.proper m).canonical.ne_basic_of_coef_ne_zero hcost.ne (List.mem_of_getElem? hleave.get)
  exact ⟨m, row, s, p, hkm, hmove, hleave, hcost, hpq, hrhs,
    lt_of_le_of_ne (hmax s m ⟨row, hmove⟩) fun hsq => hne (hpq.trans hsq.symm)⟩

/-- Raising a column of one tableau of the cycle costs the same at every other. -/
theorem eval_raise (m k s : ℕ) :
    (run k).objective.eval ((run m).raise s 1) = (run m).objective.coef s := by
  have hc := (h.proper m).canonical
  have hequiv : (run m).Equivalent (run k) := (h.equivalent m).symm.trans (h.equivalent k)
  have hcost := hequiv.costAt_eq _ (hc.solves_raise s 1)
  rw [hc.costAt_raise, mul_one, costAt, h.constant_eq hs k, h.constant_eq hs m] at hcost
  exact sub_left_inj.1 hcost

/-- Raising an improving column of one tableau meets a term that improves at every other. -/
theorem exists_coef_mul_raise_neg {m s : ℕ} (hcost : (run m).objective.coef s < 0) (k : ℕ) :
    ∃ j, (run k).objective.coef j * (run m).raise s 1 j < 0 := by
  by_contra hno
  push Not at hno
  have hsum : 0 ≤ (run k).objective.eval ((run m).raise s 1) :=
    combination_nonneg fun j _ => hno j
  rw [h.eval_raise hs m k s] at hsum
  exact absurd hcost (not_lt.2 hsum)

/-- **Somewhere in a cycle of the first-column rule a tie is broken against the lowest column.** -/
theorem exists_breaksTie (hrule : settings.pivotRule = .firstProfitable) :
    ∃ m, BreaksTie settings candidates (run m) := by
  obtain ⟨q, k, hq, hlow, hin, hmax⟩ := h.exists_entry hs hrule
  have hnot : ∀ j, (run k).objective.coef j ≠ 0 → j ∉ (run k).basis := fun j hj =>
    not_mem_basis_iff.2 fun r hr => (h.proper k).canonical.ne_basic_of_coef_ne_zero hj hr
  obtain ⟨m, row, s, p, hkm, hmove, hleave, hcost, hpq, hrhs, hsq⟩ :=
    h.exists_exit hs hin (hnot q hq.ne) hmax
  have hc := (h.proper m).canonical
  obtain ⟨j, hj⟩ := h.exists_coef_mul_raise_neg hs hcost k
  have hout : j ∉ (run k).basis := hnot j fun hzero => by simp [hzero] at hj
  by_cases hbasic : ∃ r ∈ (run m).rows, r.basic = j
  · obtain ⟨r, hr, rfl⟩ := hbasic
    have hzero : r.line.rhs = 0 := h.rhs_eq_zero hs hr hout
    rw [hc.raise_basic hr (hc.ne_basic_of_coef_ne_zero hcost.ne hr), hzero, zero_sub, mul_one] at hj
    -- the column has entered in between, so it is at most `q`; it is not the row that leaves
    obtain ⟨i, hi⟩ := h.exists_enters hkm hout (mem_basis_iff.2 ⟨r, hr, rfl⟩)
    have hne : r.basic ≠ q := by
      intro heq
      obtain ⟨n, hn⟩ := List.mem_iff_getElem?.1 hr
      obtain rfl := hc.eq_of_basic_eq hn hleave.get (heq.trans hpq.symm)
      obtain rfl := Option.some.inj (hn.symm.trans hleave.get)
      rw [heq] at hj
      have := mul_pos_of_neg_of_neg hq (neg_lt_zero.2 hleave.lt_entry)
      exact absurd hj (not_lt.2 this.le)
    have hlt : r.basic < q := lt_of_le_of_ne (hmax r.basic i hi) hne
    have hpos : 0 < r.line.coef s := by
      by_contra hle
      have := mul_nonneg (hlow r.basic hlt) (neg_nonneg.2 (not_lt.1 hle))
      exact absurd hj (not_lt.2 this)
    refine ⟨m, row, s, p, hmove, hleave.get, r, hr, hpos, ?_, hpq ▸ hlt⟩
    rw [TableauRow.ratio, TableauRow.ratio, hzero, hrhs, zero_div, zero_div]
  · -- outside the basis only `s` itself moves, and it is no improvement where `q` enters
    rw [raise_of_not_basic fun r hr hrj => hbasic ⟨r, hr, hrj⟩] at hj
    by_cases hjs : j = s
    · subst hjs
      rw [if_pos rfl, mul_one] at hj
      exact absurd hj (not_lt.2 (hlow j hsq))
    · rw [if_neg hjs, mul_zero] at hj
      exact absurd hj (lt_irrefl 0)

end Cycle

/-! ## Ties that are broken finitely often -/

variable (hs : settings.IsExact) (ht : t.Proper) (hcand : candidates ≤ t.numCols)
include hs ht hcand

/-- A run that does not end goes round in a cycle, however late one starts to look. -/
theorem exists_cycle_of_not_halts (h : ¬ Halts settings candidates t) (n : ℕ) :
    ∃ period run, Cycle settings candidates period run ∧
      ∀ m, ∃ k, n ≤ k ∧ Steps settings candidates k t (run m) := by
  obtain ⟨run, rfl, hrun⟩ := exists_endless_of_not_halts hs ht hcand h
  have hfrom : ∀ k, Steps settings candidates k (run 0) (run k) := by
    intro k
    simpa using hrun.steps 0 k
  have hproper : ∀ k, (run k).Proper ∧ (run 0).Equivalent (run k) := fun k =>
    (hfrom k).proper_equivalent hs ht hcand
  have hcols : ∀ k, candidates ≤ (run k).numCols := fun k => (hproper k).2.numCols_eq ▸ hcand
  -- from the `n`-th pivot on the run comes back to a basis, hence to a tableau
  obtain ⟨i, j, hij, hbasis⟩ := (hrun.shift n).exists_basis_eq hs (hproper n).1 (hcols n)
  have hequiv : (run (n + i)).Equivalent (run (n + j)) :=
    (hproper (n + i)).2.symm.trans (hproper (n + j)).2
  have hback : run (n + j) = run (n + i) :=
    (hproper _).1.canonical.eq_of_basis_eq (hproper _).1.canonical hequiv hbasis
  have hperiodic : ∀ k, run (n + i + (k + (j - i))) = run (n + i + k) := by
    intro k
    induction k with
    | zero => rw [Nat.zero_add, show n + i + (j - i) = n + j by omega, hback, Nat.add_zero]
    | succ k ih =>
        have hstep := hrun (n + i + (k + (j - i)))
        rw [ih] at hstep
        have := hstep.deterministic (hrun (n + i + k))
        rwa [show n + i + (k + (j - i)) + 1 = n + i + (k + 1 + (j - i)) by omega] at this
  have hcycle : Cycle settings candidates (j - i) fun k => run (n + i + k) :=
    { pos := Nat.sub_pos_of_lt hij
      endless := hrun.shift (n + i)
      periodic := hperiodic
      proper := fun k => (hproper _).1
      equivalent := fun k => (hproper _).2.symm.trans (hproper _).2
      le_numCols := fun k => hcols _ }
  exact ⟨_, _, hcycle, fun m => ⟨n + i + m, by omega, hfrom _⟩⟩

/-- **Under the first-column rule a run ends exactly if from some pivot on no tie is broken against
the lowest column.** -/
theorem halts_iff_breaksTie_finite (hrule : settings.pivotRule = .firstProfitable) :
    Halts settings candidates t ↔ ∃ n, ∀ k t', n ≤ k → Steps settings candidates k t t' →
      ¬ BreaksTie settings candidates t' := by
  constructor
  · -- at its end and after it there are no pivots
    rintro ⟨m, u, ending, hm, hhalt⟩
    refine ⟨m, ?_⟩
    intro k t' hmk hk
    rintro ⟨row, col, p, hmove, -⟩
    rcases hmk.eq_or_lt with rfl | hlt
    · obtain rfl := hm.deterministic hk
      rw [hhalt] at hmove
      simp at hmove
    · obtain ⟨v, hstep⟩ := hk.exists_step hlt hm
      exact hstep.not_halt ending hhalt
  · rintro ⟨n, hn⟩
    by_contra hno
    obtain ⟨period, run, hcycle, hreach⟩ := exists_cycle_of_not_halts hs ht hcand hno n
    obtain ⟨m, hties⟩ := hcycle.exists_breaksTie hs hrule
    obtain ⟨k, hnk, hsteps⟩ := hreach m
    exact hn k _ hnk hsteps hties

end Simplex

end BranchBound
