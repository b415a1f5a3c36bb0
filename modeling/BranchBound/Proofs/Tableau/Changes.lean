import BranchBound.Proofs.Tableau.Reshaping

/-!
# Changes of a tableau, one after the other

A solve changes the constraint rows of its tableau by pivots only, and the objective row by pivots
and by taking new costs.  Both leave a multiple of a row out if the factor is zero.  Here each
change is given a result that leaves nothing out (`Change.result`), and on canonical tableaus the
change succeeds with just that (`Change.apply_eq`).

What one change keeps is in `Change.outcome_result`, and by induction a sequence keeps it
(`Outcome.foldl`): the tableau stays canonical, its rows keep their solutions, and on these the
objective row says what the last costs taken say.
-/

namespace BranchBound

variable {K : Type} [ExactScalar K]

namespace Tableau

/-! ## New objectives with every row subtracted -/

/-- An objective line from which each row is subtracted so often that its basic column becomes
zero, also where it is zero already. -/
def pricedOut (objective : Line K) (rows : List (TableauRow K)) : Line K :=
  rows.foldl (fun o r => o.minus (o.coef r.basic) r.line) objective

/-- Rows whose factor is zero may be left out when an objective is priced out. -/
theorem priceOut_eq {n : ℕ} {rows : List (TableauRow K)}
    (hw : ∀ r ∈ rows, r.line.coefs.length = n) (hb : ∀ r ∈ rows, r.basic < n)
    {o : Line K} (ho : o.coefs.length = n) : priceOut o rows = .ok (pricedOut o rows) := by
  induction rows generalizing o with
  | nil => rfl
  | cons r rows ih =>
      have hlen : o.coefs.length = r.line.coefs.length := ho.trans (hw r List.mem_cons_self).symm
      rw [priceOut, Line.entry?_of_lt (ho ▸ hb r List.mem_cons_self)]
      simp only [Line.eliminate_eq_minus hlen]
      exact ih (fun s hs => hw s (List.mem_cons_of_mem _ hs))
        (fun s hs => hb s (List.mem_cons_of_mem _ hs)) ((Line.length_minus hlen _).trans ho)

/-- The tableau with the given costs as objective, all rows subtracted. -/
def repriced (t : Tableau K) (costs : List K) : Tableau K :=
  { t with objective := pricedOut ⟨costs, 0⟩ t.rows }

section Repriced

variable {t : Tableau K} {costs : List K}

/-- Costs for all columns are taken. -/
theorem setObjective_eq (hc : t.Canonical) (hlen : costs.length = t.numCols) :
    t.setObjective costs = .ok (t.repriced costs) := by
  rw [setObjective, if_pos hlen, priceOut_eq hc.width hc.basic_lt hlen]
  rfl

theorem repriced_spec (hc : t.Canonical) (hlen : costs.length = t.numCols) :
    t.Repriced costs (t.repriced costs) := by
  obtain ⟨t', hok, hspec⟩ := setObjective_spec hc hlen
  obtain rfl := Except.ok.inj ((setObjective_eq hc hlen).symm.trans hok)
  exact hspec

end Repriced

/-! ## Changes -/

/-- What is done to a tableau of fixed size. -/
inductive Change (K : Type) where
  /-- A pivot on an entry. -/
  | pivot (row col : ℕ)
  /-- New costs for the objective row. -/
  | objective (costs : List K)

namespace Change

/-- Carry out a change. -/
def apply (t : Tableau K) : Change K → Except Fault (Tableau K)
  | .pivot row col => t.pivot row col
  | .objective costs => t.setObjective costs

/-- The change of a tableau with no row left out. -/
def result (t : Tableau K) : Change K → Tableau K
  | .pivot row col => (t.rows[row]?).elim t (t.pivoted row col)
  | .objective costs => t.repriced costs

/-- A pivot is on an entry of a row and a variable column that is not zero, and new costs are as
many as the columns. -/
def Fits (t : Tableau K) : Change K → Prop
  | .pivot row col => col < t.numCols ∧ ∃ p, t.rows[row]? = some p ∧ p.line.coef col ≠ 0
  | .objective costs => costs.length = t.numCols

/-- What a change makes of the basic columns. -/
def basisAfter (basis : List ℕ) : Change K → List ℕ
  | .pivot row col => basis.set row col
  | .objective _ => basis

/-- What a change makes of the costs. -/
def costAfter (cost : (ℕ → K) → K) : Change K → (ℕ → K) → K
  | .pivot _ _ => cost
  | .objective costs => combination costs

/-- Every change of a sequence fits the tableau that the changes before it lead to. -/
def AllFit : Tableau K → List (Change K) → Prop
  | _, [] => True
  | t, change :: changes => change.Fits t ∧ AllFit (change.result t) changes

/-- What changes lead from `t` to: a canonical tableau of the same size with the given basic
columns, the same solutions, and the given cost of each. -/
structure Outcome (t : Tableau K) (basis : List ℕ) (cost : (ℕ → K) → K) (t' : Tableau K) :
    Prop where
  canonical : t'.Canonical
  numCols_eq : t'.numCols = t.numCols
  basis_eq : t'.basis = basis
  solves_iff : ∀ z, t'.Solves z ↔ t.Solves z
  costAt_eq : ∀ z, t.Solves z → t'.costAt z = cost z

variable {t t' : Tableau K} {change : Change K}

/-- **A change that fits succeeds, and leaves out only what makes no difference.** -/
theorem apply_eq (hc : t.Canonical) (hfits : change.Fits t) :
    change.apply t = .ok (change.result t) := by
  cases change with
  | pivot row col =>
      obtain ⟨hcol, p, hp, hne⟩ := hfits
      rw [apply, result, hp]
      exact pivot_eq hc hp hcol hne
  | objective costs => exact setObjective_eq hc hfits

/-- **What one change does to a canonical tableau.** -/
theorem outcome_result (hc : t.Canonical) (hfits : change.Fits t) :
    Outcome t (change.basisAfter t.basis) (change.costAfter t.costAt) (change.result t) := by
  cases change with
  | pivot row col =>
      obtain ⟨hcol, p, hp, hne⟩ := hfits
      have hequiv : t.Equivalent (t.pivoted row col p) := equivalent_pivoted hc hp hne
      rw [result, hp]
      exact ⟨canonical_pivoted hc hp hcol hne, hequiv.numCols_eq,
        basis_of_pivot_eq_ok (pivot_eq hc hp hcol hne), hequiv.solves_iff, hequiv.costAt_eq⟩
  | objective costs =>
      have hspec := repriced_spec hc hfits
      exact ⟨hspec.canonical, hspec.numCols_eq, rfl, fun _ => Iff.rfl, hspec.costAt_eq⟩

namespace Outcome

theorem refl (hc : t.Canonical) : Outcome t t.basis t.costAt t :=
  ⟨hc, rfl, rfl, fun _ => Iff.rfl, fun _ _ => rfl⟩

/-- The costs after further changes depend only on the costs of solutions before them. -/
theorem costAfter_congr {cost cost' : (ℕ → K) → K} {z : ℕ → K} (h : cost z = cost' z)
    (change : Change K) : change.costAfter cost z = change.costAfter cost' z := by
  cases change with
  | pivot row col => exact h
  | objective costs => rfl

variable {basis : List ℕ} {cost : (ℕ → K) → K}

/-- One more change. -/
theorem next (h : Outcome t basis cost t') (hfits : change.Fits t') :
    Outcome t (change.basisAfter basis) (change.costAfter cost) (change.result t') where
  canonical := (outcome_result h.canonical hfits).canonical
  numCols_eq := (outcome_result h.canonical hfits).numCols_eq.trans h.numCols_eq
  basis_eq := by
    rw [(outcome_result h.canonical hfits).basis_eq, h.basis_eq]
  solves_iff z := ((outcome_result h.canonical hfits).solves_iff z).trans (h.solves_iff z)
  costAt_eq z hz := by
    rw [(outcome_result h.canonical hfits).costAt_eq z ((h.solves_iff z).2 hz)]
    exact costAfter_congr (h.costAt_eq z hz) change

/-- **What one change keeps, a sequence of changes keeps.** -/
theorem foldl (h : Outcome t basis cost t') {changes : List (Change K)}
    (hfit : AllFit t' changes) :
    changes.foldlM apply t' = .ok (changes.foldl result t') ∧
      Outcome t (changes.foldl basisAfter basis) (changes.foldl costAfter cost)
        (changes.foldl result t') := by
  induction changes generalizing t' basis cost with
  | nil => exact ⟨rfl, h⟩
  | cons change changes ih =>
      obtain ⟨hok, hout⟩ := ih (h.next hfit.1) hfit.2
      refine ⟨?_, hout⟩
      rw [List.foldlM_cons, apply_eq h.canonical hfit.1]
      exact hok

end Outcome

end Change

/-- **Pivots and new objectives keep a tableau canonical and keep what it says.**  A pivot on an
entry of a row and a variable column that is not zero makes the column basic in the row, keeps the
other basic columns, the solutions of the rows and the value of the objective row on them.  New
costs keep the rows, and on their solutions the objective row has the value of the costs.  So a
sequence of both keeps the solutions, and on them the objective row has the value of the costs
taken last.  Each succeeds with the tableau from which nothing is left out where a factor is
zero. -/
theorem canonical_and_meaning_kept {t : Tableau K} (hc : t.Canonical) :
    (∀ row col p, t.rows[row]? = some p → col < t.numCols → p.line.coef col ≠ 0 →
      ∃ t', t.pivot row col = .ok t' ∧ t' = t.pivoted row col p ∧
        t'.Canonical ∧ t'.basis.Nodup ∧
        t'.basis[row]? = some col ∧ (∀ i ≠ row, t'.basis[i]? = t.basis[i]?) ∧
        (∀ z, t'.Solves z ↔ t.Solves z) ∧
        ∀ z, t.Solves z →
          t'.objective.eval z - t'.constant = t.objective.eval z - t.constant) ∧
    (∀ costs, costs.length = t.numCols →
      ∃ t', t.setObjective costs = .ok t' ∧ t' = t.repriced costs ∧
        t'.Canonical ∧ t'.rows = t.rows ∧
        ∀ z, t.Solves z → combination costs z = t'.objective.eval z - t'.constant) ∧
    ∀ changes, Change.AllFit t changes →
      ∃ t', changes.foldlM Change.apply t = .ok t' ∧ t' = changes.foldl Change.result t ∧
        t'.Canonical ∧ t'.basis = changes.foldl Change.basisAfter t.basis ∧
        (∀ z, t'.Solves z ↔ t.Solves z) ∧
        ∀ z, t.Solves z → t'.objective.eval z - t'.constant =
          changes.foldl Change.costAfter (fun z => t.objective.eval z - t.constant) z := by
  refine ⟨fun row col p hp hcol hne => ?_, fun costs hlen => ?_, fun changes hfit => ?_⟩
  · have hok := pivot_eq hc hp hcol hne
    have hbasis := basis_of_pivot_eq_ok hok
    have hcanonical := canonical_pivoted hc hp hcol hne
    have hequiv : t.Equivalent (t.pivoted row col p) := equivalent_pivoted hc hp hne
    have hrow : row < t.basis.length := by
      rw [basis, List.length_map]
      exact (List.getElem?_eq_some_iff.1 hp).1
    refine ⟨_, hok, rfl, hcanonical, hcanonical.basis_nodup, ?_, ?_, hequiv.solves_iff,
      hequiv.costAt_eq⟩
    · rw [hbasis, List.getElem?_set_self hrow]
    · intro i hi
      rw [hbasis, List.getElem?_set_ne hi.symm]
  · have hspec := repriced_spec hc hlen
    exact ⟨_, setObjective_eq hc hlen, rfl, hspec.canonical, rfl,
      fun z hz => (hspec.costAt_eq z hz).symm⟩
  · obtain ⟨hok, hout⟩ := (Change.Outcome.refl hc).foldl hfit
    exact ⟨_, hok, rfl, hout.canonical, hout.basis_eq, hout.solves_iff, hout.costAt_eq⟩

/-- Two rows with slack variables: `2x + y ≤ 4` and `x + 2y ≤ 4`, costs zero so far. -/
def twoSlacks : Tableau ℚ :=
  ⟨[⟨2, ⟨[2, 1, 1, 0], 4⟩⟩, ⟨3, ⟨[1, 2, 0, 1], 4⟩⟩], ⟨[0, 0, 0, 0], 0⟩⟩

/-- A pivot makes `x` basic.  The costs `-x - y` are taken then, and a second pivot makes `y`
basic: all solutions still cost `-x - y`. -/
theorem twoSlacks_canonical_and_meaning_kept :
    twoSlacks.Canonical ∧
    ∃ t', [Change.pivot 0 0, .objective [-1, -1, 0, 0], .pivot 1 1].foldlM Change.apply twoSlacks =
        .ok t' ∧
      t'.Canonical ∧ t'.basis = [0, 1] ∧ t'.constant = 8 / 3 ∧
      (∀ z, t'.Solves z ↔ twoSlacks.Solves z) ∧
      ∀ z, twoSlacks.Solves z →
        t'.objective.eval z - t'.constant = combination [-1, -1, 0, 0] z := by
  have hc : twoSlacks.Canonical := by decide +kernel
  have hfit : Change.AllFit twoSlacks
      [Change.pivot 0 0, .objective [-1, -1, 0, 0], .pivot 1 1] :=
    ⟨⟨by decide, _, rfl, by decide +kernel⟩, rfl, ⟨by decide +kernel, _, rfl, by decide +kernel⟩,
      trivial⟩
  obtain ⟨-, -, hrun⟩ := canonical_and_meaning_kept hc
  obtain ⟨t', hok, hresult, hcanonical, hbasis, hsolves, hcost⟩ := hrun _ hfit
  refine ⟨hc, t', hok, hcanonical, hbasis, ?_, hsolves, hcost⟩
  rw [hresult]
  decide +kernel

end Tableau

end BranchBound
