import BranchBound.Proofs.LawfulScalar
import BranchBound.Proofs.Simplex.TwoPhase

/-!
# Sizes

A tableau is sized if its parts match (`Sized`): every row has one coefficient per column, and its
basic column is one of them.  Over any scalars, whatever their operations give, the standard form of
a program is sized, and pivots, new objectives and cuts keep a tableau so.  In a sized tableau the
rows and columns that the selections name are in range, and what they name lies above the tolerance
for pivots.

The number of columns changes once, when the artificial columns are cut off.  The rows that are kept
then are solved for columns that stay (`SolvedWithin`), because the others are left out.
-/

namespace BranchBound

variable {K : Type} [Scalar K]

namespace Line

omit [Scalar K] in
/-- A line has an entry in every column. -/
theorem exists_entry? {l : Line K} {col : ℕ} (h : col < l.coefs.length) :
    ∃ v, l.entry? col = some v := by
  refine ⟨_, List.getElem?_eq_getElem ?_⟩
  rw [length_entries]
  exact Nat.lt_succ_of_lt h

theorem length_eliminate {l o : Line K} (h : l.coefs.length = o.coefs.length) (f : K) :
    (l.eliminate f o).coefs.length = l.coefs.length := by
  unfold eliminate
  split
  · rfl
  · simp [minus, h]

end Line

namespace Tableau

omit [Scalar K] in
/-- There are `n` columns, each row has a coefficient in each of them, and is solved for one. -/
structure Sized (t : Tableau K) (n : ℕ) : Prop where
  numCols_eq : t.numCols = n
  width : ∀ r ∈ t.rows, r.line.coefs.length = n
  basic_lt : ∀ r ∈ t.rows, r.basic < n

omit [Scalar K] in
/-- These rows are solved for some of the first `k` columns. -/
def SolvedWithin (t : Tableau K) (k : ℕ) (rows : List ℕ) : Prop :=
  ∀ i ∈ rows, ∃ j < k, t.basis[i]? = some j

omit [Scalar K] in
/-- A row solved for one of the first columns exists. -/
theorem SolvedWithin.exists_row {t : Tableau K} {k : ℕ} {rows : List ℕ} (h : t.SolvedWithin k rows)
    {i : ℕ} (hi : i ∈ rows) : ∃ r, t.rows[i]? = some r ∧ r.basic < k := by
  obtain ⟨j, hj, hbasic⟩ := h i hi
  rw [getElem?_basis, Option.map_eq_some_iff] at hbasic
  obtain ⟨r, hr, rfl⟩ := hbasic
  exact ⟨r, hr, hj⟩

theorem length_clearColumn {l pivotLine : Line K} (h : l.coefs.length = pivotLine.coefs.length)
    (col : ℕ) : (clearColumn col pivotLine l).coefs.length = l.coefs.length := by
  unfold clearColumn
  split
  · exact Line.length_eliminate h _
  · rfl

/-- Pricing out finds every basic column and keeps the width. -/
theorem exists_priceOut {n : ℕ} {rows : List (TableauRow K)}
    (hwidth : ∀ r ∈ rows, r.line.coefs.length = n) (hbasic : ∀ r ∈ rows, r.basic < n)
    {objective : Line K} (h : objective.coefs.length = n) :
    ∃ priced, priceOut objective rows = .ok priced ∧ priced.coefs.length = n := by
  induction rows generalizing objective with
  | nil => exact ⟨objective, rfl, h⟩
  | cons r rest ih =>
      obtain ⟨factor, hfactor⟩ := Line.exists_entry? (h ▸ hbasic r List.mem_cons_self)
      have hlen := h.trans (hwidth r List.mem_cons_self).symm
      rw [priceOut, hfactor]
      exact ih (fun s hs => hwidth s (List.mem_cons_of_mem _ hs))
        (fun s hs => hbasic s (List.mem_cons_of_mem _ hs)) ((Line.length_eliminate hlen _).trans h)

/-- The lowest cost is the one found so far or one of those that are left. -/
theorem lowestBelow_cases (index : ℕ) (bound : K) (found : Option ℕ) (costs : List K) :
    lowestBelow index bound found costs = found ∨
      ∃ k < costs.length, lowestBelow index bound found costs = some (index + k) := by
  induction costs generalizing index bound found with
  | nil => exact .inl rfl
  | cons cost rest ih =>
      have hlater : ∀ bound' found', (∃ k < rest.length,
          lowestBelow (index + 1) bound' found' rest = some (index + 1 + k)) →
          ∃ k < (cost :: rest).length,
            lowestBelow (index + 1) bound' found' rest = some (index + k) := by
        rintro bound' found' ⟨k, hk, hsome⟩
        exact ⟨k + 1, Nat.succ_lt_succ hk, by rw [hsome, Nat.add_right_comm, Nat.add_assoc]⟩
      rw [lowestBelow]
      split
      · obtain hfound | hrest := ih (index + 1) cost (some index)
        · exact .inr ⟨0, Nat.succ_pos _, hfound⟩
        · exact .inr (hlater _ _ hrest)
      · exact (ih (index + 1) bound found).imp_right (hlater _ _)

/-- The ratio test over full rows finds none or one with an entry above the tolerance. -/
theorem ratioTest_cases {col : ℕ} (tol : K) {rows : List (TableauRow K)}
    (hwidth : ∀ r ∈ rows, col < r.line.coefs.length) (index : ℕ) (best : Option (ℕ × K)) :
    ratioTest col tol index best rows = .ok (best.map Prod.fst) ∨
      ∃ k r v, ratioTest col tol index best rows = .ok (some (index + k)) ∧
        rows[k]? = some r ∧ r.line.entry? col = some v ∧ tol < v := by
  induction rows generalizing index best with
  | nil => exact .inl rfl
  | cons row rest ih =>
      obtain ⟨v, hv⟩ := Line.exists_entry? (hwidth row List.mem_cons_self)
      have ih := ih fun r hr => hwidth r (List.mem_cons_of_mem _ hr)
      have hlater : ∀ best', (∃ k r v, ratioTest col tol (index + 1) best' rest =
          .ok (some (index + 1 + k)) ∧ rest[k]? = some r ∧ r.line.entry? col = some v ∧ tol < v) →
          ∃ k r v, ratioTest col tol (index + 1) best' rest = .ok (some (index + k)) ∧
            (row :: rest)[k]? = some r ∧ r.line.entry? col = some v ∧ tol < v := by
        rintro best' ⟨k, r, w, hok, hfound⟩
        exact ⟨k + 1, r, w, by rw [hok, Nat.add_right_comm, Nat.add_assoc], hfound⟩
      rw [ratioTest, hv]
      simp only
      split
      · rename_i hbetter
        obtain hok | hfound := ih (index + 1) (some (index, row.line.rhs / v))
        · exact .inr ⟨0, row, v, hok, rfl, hv, hbetter.1⟩
        · exact .inr (hlater _ hfound)
      · exact (ih (index + 1) best).imp_right (hlater _)

namespace Sized

variable {t : Tableau K} {n : ℕ} (h : t.Sized n)
include h

/-- **A pivot on an entry that is not zero succeeds and keeps the sizes.** -/
theorem pivot {row col : ℕ} {r : TableauRow K} {v : K} (hr : t.rows[row]? = some r)
    (hv : r.line.entry? col = some v) (hcol : col < n) (hne : Scalar.isZero v = false) :
    ∃ t', t.pivot row col = .ok t' ∧ t'.Sized n := by
  have hline : (r.line.divideBy v).coefs.length = n := by
    rw [Line.divideBy, List.length_map, h.width r (List.mem_of_getElem? hr)]
  have hrows : ∀ {l : Line K}, l.coefs.length = n →
      (clearColumn col (r.line.divideBy v) l).coefs.length = n :=
    fun hl => (length_clearColumn (hl.trans hline.symm) col).trans hl
  simp only [Tableau.pivot, hr, hv, hne]
  refine ⟨_, rfl, hrows h.numCols_eq, ?_, ?_⟩
  · intro s hs
    obtain ⟨i, hi⟩ := List.mem_iff_getElem?.1 hs
    rw [List.getElem?_mapIdx, Option.map_eq_some_iff] at hi
    obtain ⟨q, hq, rfl⟩ := hi
    split
    · exact hline
    · exact hrows (h.width q (List.mem_of_getElem? hq))
  · intro s hs
    obtain ⟨i, hi⟩ := List.mem_iff_getElem?.1 hs
    rw [List.getElem?_mapIdx, Option.map_eq_some_iff] at hi
    obtain ⟨q, hq, rfl⟩ := hi
    split
    · exact hcol
    · exact h.basic_lt q (List.mem_of_getElem? hq)

/-- A new objective with one cost per column keeps the sizes. -/
theorem setObjective {costs : List K} (hcosts : costs.length = n) :
    ∃ t', t.setObjective costs = .ok t' ∧ t'.Sized n := by
  obtain ⟨objective, hok, hlen⟩ :=
    exists_priceOut h.width h.basic_lt (show (⟨costs, 0⟩ : Line K).coefs.length = n from hcosts)
  refine ⟨{ t with objective := objective }, ?_, hlen, h.width, h.basic_lt⟩
  rw [Tableau.setObjective, if_pos (hcosts.trans h.numCols_eq.symm), hok]
  rfl

omit [Scalar K] in
/-- Keeping rows that are solved for some of the first columns, and these columns, succeeds. -/
theorem restrict {k : ℕ} (hk : k ≤ n) {keep : List ℕ} (hkeep : t.SolvedWithin k keep) :
    ∃ t', t.restrict keep k = .ok t' ∧ t'.Sized k := by
  have hcols : k ≤ t.numCols := h.numCols_eq.symm ▸ hk
  have hrange : ∀ i ∈ keep, i < t.rows.length := by
    intro i hi
    obtain ⟨r, hr, -⟩ := hkeep.exists_row hi
    exact (List.getElem?_eq_some_iff.1 hr).1
  obtain ⟨t', hok, hrestricted⟩ := restrict_spec hrange hcols
  refine ⟨t', hok, hrestricted.numCols_eq hcols, fun r' hr' => ?_, fun r' hr' => ?_⟩
  · obtain ⟨l, hl⟩ := List.mem_iff_getElem?.1 hr'
    obtain ⟨i, r, -, hr, rfl⟩ := hrestricted.exists_of_getElem? hl
    exact Line.length_firstColumns (h.width r (List.mem_of_getElem? hr) ▸ hk)
  · obtain ⟨l, hl⟩ := List.mem_iff_getElem?.1 hr'
    obtain ⟨i, r, hi, hr, rfl⟩ := hrestricted.exists_of_getElem? hl
    obtain ⟨s, hs, hlt⟩ := hkeep.exists_row (List.mem_of_getElem? hi)
    obtain rfl := Option.some.inj (hr.symm.trans hs)
    exact hlt

/-- The entering column is one of the candidates. -/
theorem selectEntering (rule : PivotRule) {limit : ℕ} (hlimit : limit ≤ n) (tol : K) :
    t.selectEntering rule limit tol = .ok none ∨
      ∃ col < limit, t.selectEntering rule limit tol = .ok (some col) := by
  have hlen : (t.objective.entries.take limit).length = limit :=
    Line.length_take_entries (hlimit.trans h.numCols_eq.ge)
  have henough : ¬ (t.objective.entries.take limit).length < limit := by
    rw [hlen]
    exact lt_irrefl limit
  cases rule with
  | dantzig =>
      simp only [Tableau.selectEntering, if_neg henough]
      obtain hnone | ⟨k, hk, hsome⟩ :=
        lowestBelow_cases 0 (-tol) none (t.objective.entries.take limit)
      · exact .inl (congrArg Except.ok hnone)
      · exact .inr ⟨k, hlen ▸ hk, by rw [hsome, Nat.zero_add]⟩
  | firstProfitable =>
      simp only [Tableau.selectEntering, if_neg henough]
      cases hfind : (t.objective.entries.take limit).findIdx? (fun c => decide (c < -tol)) with
      | none => exact .inl rfl
      | some col =>
          exact .inr ⟨col, hlen ▸ (List.findIdx?_eq_some_iff_getElem.1 hfind).1, rfl⟩

/-- The leaving row has an entry above the tolerance. -/
theorem selectLeaving {col : ℕ} (hcol : col < n) (tol : K) :
    t.selectLeaving col tol = .ok none ∨
      ∃ row r v, t.selectLeaving col tol = .ok (some row) ∧ t.rows[row]? = some r ∧
        r.line.entry? col = some v ∧ tol < v := by
  have hwidth : ∀ r ∈ t.rows, col < r.line.coefs.length := fun r hr => (h.width r hr).symm ▸ hcol
  refine (ratioTest_cases tol hwidth 0 none).imp_right ?_
  rintro ⟨row, r, v, hok, hfound⟩
  exact ⟨row, r, v, by rw [Tableau.selectLeaving, hok, Nat.zero_add], hfound⟩

end Sized

end Tableau

namespace Simplex

open Tableau

variable {settings : LinearProgram.Settings K} {p : LinearProgram K} {t : Tableau K} {n : ℕ}

/-! ## The iteration -/

variable (settings) in
/-- The next move is to halt, or to pivot on an entry above the tolerance. -/
theorem nextMove_cases (h : t.Sized n) {candidates : ℕ} (hcandidates : candidates ≤ n) :
    (∃ ending, nextMove settings candidates t = .ok (.halt ending)) ∨
      ∃ row col r v, nextMove settings candidates t = .ok (.pivot row col) ∧
        t.rows[row]? = some r ∧ r.line.entry? col = some v ∧ col < n ∧
          settings.pivotTol < v := by
  obtain hentering | ⟨col, hcol, hentering⟩ :=
    h.selectEntering settings.pivotRule hcandidates settings.costTol
  · refine .inl ⟨.optimal, ?_⟩
    rw [nextMove, hentering]
    rfl
  · have hcol := hcol.trans_le hcandidates
    obtain hleaving | ⟨row, r, v, hleaving, hr, hv, hlt⟩ := h.selectLeaving hcol settings.pivotTol
    · refine .inl ⟨.unbounded, ?_⟩
      simp only [nextMove, hentering, hleaving, bind, Except.bind]
      rfl
    · refine .inr ⟨row, col, r, v, ?_, hr, hv, hcol, hlt⟩
      simp only [nextMove, hentering, hleaving, bind, Except.bind]
      rfl

/-- The iteration halts at an optimum or on a ray, or pivots on what the two selections give. -/
theorem nextMove_eq_ok {candidates : ℕ} {move : Move}
    (h : nextMove settings candidates t = .ok move) :
    move = .halt .optimal ∨ move = .halt .unbounded ∨
      ∃ row col, move = .pivot row col ∧
        t.selectEntering settings.pivotRule candidates settings.costTol = .ok (some col) ∧
        t.selectLeaving col settings.pivotTol = .ok (some row) := by
  rw [nextMove] at h
  cases hentering : t.selectEntering settings.pivotRule candidates settings.costTol with
  | error fault => simp [hentering, bind, Except.bind] at h
  | ok entering =>
      cases entering with
      | none =>
          refine .inl ?_
          simpa [hentering, bind, Except.bind, pure, Except.pure] using h.symm
      | some col =>
          simp only [hentering, bind, Except.bind] at h
          cases hleaving : t.selectLeaving col settings.pivotTol with
          | error fault => simp [hleaving] at h
          | ok leaving =>
              cases leaving with
              | none =>
                  refine .inr (.inl ?_)
                  simpa [hleaving, pure, Except.pure] using h.symm
              | some row =>
                  refine .inr (.inr ⟨row, col, ?_, rfl, hleaving⟩)
                  simpa [hleaving, pure, Except.pure] using h.symm

/-! ## The first phase -/

/-- Looking for a column to exchange finds none, or one with an entry larger than the tolerance. -/
theorem exchangeColumn?_finds (h : t.Sized n) {row k : ℕ} {r : TableauRow K}
    (hr : t.rows[row]? = some r) (hk : k ≤ n) (tol : K) :
    exchangeColumn? t row k tol = .ok none ∨
      ∃ col v, exchangeColumn? t row k tol = .ok (some col) ∧ col < k ∧
        r.line.entry? col = some v ∧ tol < Scalar.abs v := by
  have hlen : (r.line.entries.take k).length = k :=
    Line.length_take_entries (hk.trans (h.width r (List.mem_of_getElem? hr)).ge)
  have henough : ¬ (r.line.entries.take k).length < k := by
    rw [hlen]
    exact lt_irrefl k
  cases hfind : (r.line.entries.take k).findIdx? (fun v => decide (tol < Scalar.abs v)) with
  | none =>
      refine .inl ?_
      simp only [exchangeColumn?, hr, inRange, bind, Except.bind, hfind, if_neg henough]
      rfl
  | some col =>
      obtain ⟨hcol, hlarge, -⟩ := List.findIdx?_eq_some_iff_getElem.1 hfind
      rw [List.getElem_take] at hlarge
      refine .inr ⟨col, _, ?_, hlen ▸ hcol, List.getElem?_eq_getElem _, of_decide_eq_true hlarge⟩
      simp only [exchangeColumn?, hr, inRange, bind, Except.bind, hfind]
      rfl

/-- Exchanging a row for one of the first columns keeps what is solved for these. -/
theorem solvedWithin_of_pivot {t' : Tableau K} {row col k : ℕ} {kept : List ℕ}
    (h : t.SolvedWithin k kept) (hpivot : t.pivot row col = .ok t') (hrow : row < t.numRows)
    (hcol : col < k) : t'.SolvedWithin k (kept ++ [row]) := by
  have hbasis := basis_of_pivot_eq_ok hpivot
  intro i hi
  by_cases heq : i = row
  · refine ⟨col, hcol, ?_⟩
    rw [hbasis, heq, List.getElem?_set_self (by rwa [basis, List.length_map])]
  · obtain hi := (List.mem_append.1 hi).resolve_right (by simpa using heq)
    rw [hbasis, List.getElem?_set_ne (Ne.symm heq)]
    exact h i hi

variable (settings) in
/-- The rows of the standard form have one entry per column and are solved for a slack or an
artificial column. -/
theorem standardRows_sized {k m a : ℕ} (index artificial : ℕ) {cs : List (List K × K)}
    (hlen : ∀ c ∈ cs, c.1.length = k) (hindex : index + cs.length ≤ m)
    (hart : artificial + cs.countP (fun c => isNegated settings c.2) ≤ a) :
    ∀ r ∈ standardRows settings k m a index artificial cs,
      r.line.coefs.length = k + m + a ∧ r.basic < k + m + a := by
  induction cs generalizing index artificial with
  | nil => simp [standardRows]
  | cons c rest ih =>
      have hfirst := hlen c List.mem_cons_self
      have hlen : ∀ d ∈ rest, d.1.length = k := fun d hd => hlen d (List.mem_cons_of_mem _ hd)
      rw [List.length_cons] at hindex
      rw [List.countP_cons] at hart
      intro r hr
      rw [standardRows] at hr
      split at hr
      · rename_i hneg
        rw [if_pos hneg] at hart
        rcases List.mem_cons.1 hr with rfl | hr
        · exact ⟨by simp [unitList, hfirst]; omega, by simp only; omega⟩
        · exact ih _ _ hlen (by omega) (by omega) r hr
      · rename_i hneg
        rw [if_neg hneg] at hart
        rcases List.mem_cons.1 hr with rfl | hr
        · exact ⟨by simp [unitList, hfirst]; omega, by simp only; omega⟩
        · exact ih _ _ hlen (by omega) (by omega) r hr

/-- **The standard form is sized.** -/
theorem standardForm_sized (settings : LinearProgram.Settings K) (hp : p.Shaped) :
    (standardForm settings p).tableau.Sized
      (p.numVars + p.numConstraints + (standardForm settings p).numArtificial) := by
  have hzip : (p.rows.zip p.limits).length = p.numConstraints := by
    rw [List.length_zip, hp.rows_length]
    exact min_self _
  have hcount : (p.rows.zip p.limits).countP (fun c => isNegated settings c.2) =
      (standardForm settings p).numArtificial := by
    have hsnd : (p.rows.zip p.limits).map Prod.snd = p.limits :=
      List.map_snd_zip (by rw [hp.rows_length]; exact le_rfl)
    show _ = p.limits.countP (isNegated settings)
    rw [← hsnd, List.countP_map, hsnd]
    rfl
  have hlen : ∀ c ∈ p.rows.zip p.limits, c.1.length = p.numVars :=
    fun c hc => hp.row_length _ (List.of_mem_zip hc).1
  have hrows := standardRows_sized settings 0 0 hlen (by rw [hzip, Nat.zero_add])
    (by rw [hcount, Nat.zero_add])
  refine ⟨?_, fun r hr => (hrows r hr).1, fun r hr => (hrows r hr).2⟩
  show (List.replicate _ (0 : K)).length = _
  rw [List.length_replicate]
  rfl

end Simplex

end BranchBound
