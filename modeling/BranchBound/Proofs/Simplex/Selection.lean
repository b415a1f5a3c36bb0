import BranchBound.Proofs.Tableau.Canonical

/-!
# What the pivot selection finds

The entering column is a candidate with a reduced cost below the tolerance, and under the rule that
takes the first such column no earlier candidate has one (`selectEntering_spec`).  The leaving row
has the least ratio of right-hand side to entry among the entries above the tolerance, and of equal
ratios the first one (`selectLeaving_spec`).
-/

namespace BranchBound

variable {K : Type} [ExactScalar K]

/-- What the ratio test compares. -/
def TableauRow.ratio (r : TableauRow K) (col : ℕ) : K := r.line.rhs / r.line.coef col

namespace Tableau

/-! ## The entering column -/

/-- The column is a candidate that improves the objective. -/
structure Entering (t : Tableau K) (rule : PivotRule) (limit : ℕ) (tol : K) (col : ℕ) : Prop where
  lt_limit : col < limit
  cost_lt : t.objective.coef col < -tol
  first : rule = .firstProfitable → ∀ j < col, -tol ≤ t.objective.coef j

/-- With tolerance zero the reduced cost is negative. -/
theorem Entering.cost_neg {t : Tableau K} {rule : PivotRule} {limit col : ℕ}
    (h : t.Entering rule limit 0 col) : t.objective.coef col < 0 := by
  simpa using h.cost_lt

/-- The lowest of several costs is the one found so far or one of those that are left. -/
theorem lowestBelow_eq_some {index j : ℕ} {bound : K} {found : Option ℕ} {costs : List K}
    (h : lowestBelow index bound found costs = some j) :
    found = some j ∨ ∃ k v, j = index + k ∧ costs[k]? = some v ∧ v < bound := by
  induction costs generalizing index bound found with
  | nil => exact .inl h
  | cons cost rest ih =>
      unfold lowestBelow at h
      split at h
      · rename_i hlt
        rcases ih h with hfound | ⟨k, v, rfl, hk, hv⟩
        · exact .inr ⟨0, cost, (Option.some.inj hfound).symm, rfl, hlt⟩
        · exact .inr ⟨k + 1, v, by omega, hk, hv.trans hlt⟩
      · rcases ih h with hfound | ⟨k, v, rfl, hk, hv⟩
        · exact .inl hfound
        · exact .inr ⟨k + 1, v, by omega, hk, hv⟩

/-- Nothing is found only if there was nothing before and no cost is below the bound. -/
theorem lowestBelow_eq_none {index : ℕ} {bound : K} {found : Option ℕ} {costs : List K}
    (h : lowestBelow index bound found costs = none) :
    found = none ∧ ∀ v ∈ costs, bound ≤ v := by
  induction costs generalizing index bound found with
  | nil => exact ⟨h, by simp⟩
  | cons cost rest ih =>
      unfold lowestBelow at h
      split at h
      · exact absurd (ih h).1 (by simp)
      · rename_i hlt
        obtain ⟨hfound, hrest⟩ := ih h
        refine ⟨hfound, ?_⟩
        intro v hv
        rcases List.mem_cons.1 hv with rfl | hv
        · exact not_lt.1 hlt
        · exact hrest v hv

/-- **An entering column is found exactly if some candidate improves the objective.** -/
theorem selectEntering_spec (t : Tableau K) (rule : PivotRule) {limit : ℕ} (tol : K)
    (hlim : limit ≤ t.numCols) :
    (t.selectEntering rule limit tol = .ok none ∧ ∀ j < limit, -tol ≤ t.objective.coef j) ∨
    ∃ col, t.selectEntering rule limit tol = .ok (some col) ∧ t.Entering rule limit tol col := by
  have hcosts := Line.getElem?_take_entries hlim
  have hlen : ¬ (t.objective.entries.take limit).length < limit := by
    rw [Line.length_take_entries hlim]
    exact lt_irrefl limit
  cases rule with
  | dantzig =>
      simp only [selectEntering, if_neg hlen]
      cases h : lowestBelow 0 (-tol) none (t.objective.entries.take limit) with
      | none =>
          refine .inl ⟨rfl, fun j hj => (lowestBelow_eq_none h).2 _ ?_⟩
          exact List.mem_of_getElem? ((hcosts j).trans (if_pos hj))
      | some col =>
          obtain hfound | ⟨k, v, rfl, hk, hv⟩ := lowestBelow_eq_some h
          · cases hfound
          · rw [hcosts, zero_add] at *
            split at hk
            · rename_i hlt
              exact .inr ⟨k, rfl, hlt, Option.some.inj hk ▸ hv, by simp⟩
            · cases hk
  | firstProfitable =>
      simp only [selectEntering, if_neg hlen]
      obtain ⟨hfind, hnone⟩ | ⟨col, hfind, hlt, hcost, hfirst⟩ :=
        Line.findIdx?_take_entries hlim fun cost => decide (cost < -tol)
      · rw [hfind]
        refine .inl ⟨rfl, ?_⟩
        intro j hj
        simpa using hnone j hj
      · rw [hfind]
        refine .inr ⟨col, rfl, hlt, of_decide_eq_true hcost, ?_⟩
        intro _ j hj
        simpa using hfirst j hj

/-! ## The leaving row -/

/-- The row `p`, number `row`, has the least ratio among the entries above the tolerance, and is the
first with this ratio. -/
structure Leaving (t : Tableau K) (tol : K) (row col : ℕ) (p : TableauRow K) : Prop where
  get : t.rows[row]? = some p
  lt_entry : tol < p.line.coef col
  least : ∀ r ∈ t.rows, tol < r.line.coef col → p.ratio col ≤ r.ratio col
  first : ∀ i < row, ∀ r, t.rows[i]? = some r → tol < r.line.coef col → p.ratio col < r.ratio col

/-- A row undercuts the best one so far if there is none or its ratio is less. -/
theorem undercuts_iff (ratio : K) (best : Option (ℕ × K)) :
    undercuts ratio best = true ↔ ∀ b, best = some b → ratio < b.2 := by
  cases best with
  | none => simp [undercuts, ExactScalar.belowTop_eq]
  | some b => simp [undercuts]

section Rows

variable {row p : TableauRow K} {rest : List (TableauRow K)} {o : Line K} {tol : K} {k col : ℕ}

/-- A first row that no other row undercuts leaves. -/
theorem Leaving.head (hentry : tol < row.line.coef col)
    (hleast : ∀ r ∈ rest, tol < r.line.coef col → row.ratio col ≤ r.ratio col) :
    Leaving ⟨row :: rest, o⟩ tol 0 col row where
  get := rfl
  lt_entry := hentry
  least r hr htol := by
    rcases List.mem_cons.1 hr with rfl | hr
    · exact le_rfl
    · exact hleast r hr htol
  first i hi := absurd hi (Nat.not_lt_zero i)

/-- A row that leaves still does after a row that it undercuts. -/
theorem Leaving.cons (hp : Leaving ⟨rest, o⟩ tol k col p)
    (hlt : tol < row.line.coef col → p.ratio col < row.ratio col) :
    Leaving ⟨row :: rest, o⟩ tol (k + 1) col p where
  get := hp.get
  lt_entry := hp.lt_entry
  least r hr htol := by
    rcases List.mem_cons.1 hr with rfl | hr
    · exact (hlt htol).le
    · exact hp.least r hr htol
  first i hi r hr htol := by
    cases i with
    | zero =>
        obtain rfl := Option.some.inj hr
        exact hlt htol
    | succ i => exact hp.first i (by omega) r hr htol

end Rows

/-- What the ratio test has found after going through all rows, from the best row so far. -/
theorem ratioTest_spec {col : ℕ} (tol : K) {rows : List (TableauRow K)}
    (hw : ∀ r ∈ rows, col < r.line.coefs.length) (index : ℕ) (best : Option (ℕ × K)) :
    (ratioTest col tol index best rows = .ok (best.map Prod.fst) ∧
      ∀ r ∈ rows, tol < r.line.coef col → ∃ b, best = some b ∧ b.2 ≤ r.ratio col) ∨
    ∃ k p, ratioTest col tol index best rows = .ok (some (index + k)) ∧
      Leaving ⟨rows, ⟨[], 0⟩⟩ tol k col p ∧ ∀ b, best = some b → p.ratio col < b.2 := by
  induction rows generalizing index best with
  | nil => exact .inl ⟨rfl, by simp⟩
  | cons row rest ih =>
      have hrow := Line.entry?_of_lt (hw row List.mem_cons_self)
      have ih := ih fun r hr => hw r (List.mem_cons_of_mem _ hr)
      have hindex : ∀ k, index + 1 + k = index + (k + 1) := fun k => by omega
      rw [ratioTest, hrow]
      simp only
      split
      · -- the row is the best so far
        rename_i hcond
        obtain ⟨hentry, hunder⟩ := hcond
        have hbest := (undercuts_iff _ _).1 hunder
        obtain ⟨hok, hrest⟩ | ⟨k, p, hok, hp, hlt⟩ := ih (index + 1) (some (index, row.ratio col))
        · refine .inr ⟨0, row, hok, .head hentry fun r hr htol => ?_, hbest⟩
          obtain ⟨b, hb, hle⟩ := hrest r hr htol
          obtain rfl := Option.some.inj hb
          exact hle
        · have hpr : p.ratio col < row.ratio col := hlt _ rfl
          exact .inr ⟨k + 1, p, hindex k ▸ hok, hp.cons fun _ => hpr,
            fun b hb => hpr.trans (hbest b hb)⟩
      · -- the row does not come into question
        rename_i hcond
        have hskip : tol < row.line.coef col → ∃ b, best = some b ∧ b.2 ≤ row.ratio col := by
          intro htol
          by_contra hno
          refine hcond ⟨htol, (undercuts_iff _ _).2 ?_⟩
          intro b hb
          exact not_le.1 fun hle => hno ⟨b, hb, hle⟩
        obtain ⟨hok, hrest⟩ | ⟨k, p, hok, hp, hlt⟩ := ih (index + 1) best
        · refine .inl ⟨hok, ?_⟩
          intro r hr htol
          rcases List.mem_cons.1 hr with rfl | hr
          · exact hskip htol
          · exact hrest r hr htol
        · refine .inr ⟨k + 1, p, hindex k ▸ hok, hp.cons fun htol => ?_, hlt⟩
          obtain ⟨b, hb, hle⟩ := hskip htol
          exact (hlt b hb).trans_le hle

/-- **A leaving row is found exactly if some entry of the column is above the tolerance.** -/
theorem selectLeaving_spec {t : Tableau K} (hc : t.Canonical) {col : ℕ} (hcol : col < t.numCols)
    (tol : K) :
    (t.selectLeaving col tol = .ok none ∧ ∀ r ∈ t.rows, r.line.coef col ≤ tol) ∨
    ∃ row p, t.selectLeaving col tol = .ok (some row) ∧ t.Leaving tol row col p := by
  have hw : ∀ r ∈ t.rows, col < r.line.coefs.length := fun r hr => (hc.width r hr).symm ▸ hcol
  obtain ⟨hok, hnone⟩ | ⟨k, p, hok, hp, -⟩ := ratioTest_spec tol hw 0 none
  · refine .inl ⟨hok, fun r hr => not_lt.1 fun htol => ?_⟩
    obtain ⟨b, hb, -⟩ := hnone r hr htol
    cases hb
  · exact .inr ⟨k, p, by rw [selectLeaving, hok, zero_add],
      ⟨hp.get, hp.lt_entry, hp.least, hp.first⟩⟩

end Tableau

end BranchBound
