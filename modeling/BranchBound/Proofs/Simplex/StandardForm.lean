import BranchBound.Proofs.Feasible
import BranchBound.Proofs.Simplex.Steps
import BranchBound.Simplex.PhaseOne

/-!
# The standard form of a program

The standard form has one row per constraint, and the row's left-hand side is the constraint's with
a slack added, up to sign; a negated row has an artificial variable besides (`eval_standardRow`).
It is a proper tableau (`standardForm_proper`).  Its solutions without artificial part are the
solutions of the slack equations (`solves_standardForm_iff`), and those without negative values are
the feasible points of the program with their slacks (`slackForm_slackPoint`,
`feasible_of_slack`).
-/

namespace BranchBound

variable {K : Type} [ExactScalar K]

namespace Simplex

open Tableau

variable {settings : LinearProgram.Settings K}

/-! ## Rows -/

/-- The sign with which a constraint enters its row. -/
def rowSign (settings : LinearProgram.Settings K) (limit : K) : K :=
  if isNegated settings limit then -1 else 1

/-- The row of one constraint. -/
def standardRow (settings : LinearProgram.Settings K) (n m a index artificial : ℕ)
    (c : List K × K) : TableauRow K :=
  if isNegated settings c.2 then
    ⟨n + m + artificial,
      ⟨c.1.map (fun v => -1 * v) ++ unitList m index (-1) ++ unitList a artificial 1, -1 * c.2⟩⟩
  else
    ⟨n + index, ⟨c.1.map (fun v => 1 * v) ++ unitList m index 1 ++ List.replicate a 0, 1 * c.2⟩⟩

/-- Number of negated constraints. -/
def countNegated (settings : LinearProgram.Settings K) (cs : List (List K × K)) : ℕ :=
  cs.countP fun c => isNegated settings c.2

theorem countNegated_cons (c : List K × K) (cs : List (List K × K)) :
    countNegated settings (c :: cs) =
      countNegated settings cs + if isNegated settings c.2 then 1 else 0 := by
  rw [countNegated, List.countP_cons]
  rfl

theorem standardRows_getElem? (n m a index artificial : ℕ) (cs : List (List K × K)) (i : ℕ) :
    (standardRows settings n m a index artificial cs)[i]? =
      (cs[i]?).map fun c => standardRow settings n m a (index + i)
        (artificial + countNegated settings (cs.take i)) c := by
  induction cs generalizing index artificial i with
  | nil => rfl
  | cons c cs ih =>
      unfold standardRows
      by_cases hneg : isNegated settings c.2 = true
      · rw [if_pos hneg]
        cases i with
        | zero => simp [standardRow, countNegated, hneg]
        | succ i =>
            rw [List.getElem?_cons_succ, ih, List.getElem?_cons_succ, List.take_succ_cons,
              countNegated_cons, if_pos hneg]
            congr 2
            funext c
            congr 1 <;> omega
      · rw [if_neg hneg]
        cases i with
        | zero => simp [standardRow, countNegated, hneg]
        | succ i =>
            rw [List.getElem?_cons_succ, ih, List.getElem?_cons_succ, List.take_succ_cons,
              countNegated_cons, if_neg hneg]
            congr 2
            funext c
            congr 1
            omega

/-- A negated constraint counts among those before any later one. -/
theorem countNegated_lt {cs : List (List K × K)} {i j : ℕ} {c : List K × K} (hij : i < j)
    (hc : cs[i]? = some c) (hneg : isNegated settings c.2 = true) :
    countNegated settings (cs.take i) < countNegated settings (cs.take j) := by
  have hsub : (cs.take (i + 1)).Sublist (cs.take j) := by
    rw [show cs.take (i + 1) = (cs.take j).take (i + 1) by rw [List.take_take]; congr 1; omega]
    exact List.take_sublist _ _
  have hstep : countNegated settings (cs.take (i + 1)) = countNegated settings (cs.take i) + 1 := by
    rw [countNegated, countNegated, List.take_add_one, hc, List.countP_append]
    simp [hneg]
  have := hsub.countP_le (p := fun c => isNegated settings c.2)
  simp only [countNegated] at hstep this ⊢
  omega

/-- Every number below the count is the number of negated constraints before a negated one. -/
theorem exists_of_lt_countNegated {cs : List (List K × K)} {k : ℕ}
    (hk : k < countNegated settings cs) :
    ∃ i c, cs[i]? = some c ∧ isNegated settings c.2 = true ∧
      countNegated settings (cs.take i) = k := by
  induction cs generalizing k with
  | nil => simp [countNegated] at hk
  | cons c cs ih =>
      rw [countNegated_cons] at hk
      by_cases hneg : isNegated settings c.2 = true
      · rw [if_pos hneg] at hk
        cases k with
        | zero => exact ⟨0, c, rfl, hneg, rfl⟩
        | succ k =>
            obtain ⟨i, d, hd, hneg', hcount⟩ := ih (k := k) (by omega)
            refine ⟨i + 1, d, hd, hneg', ?_⟩
            rw [List.take_succ_cons, countNegated_cons, if_pos hneg, hcount]
      · rw [if_neg hneg, add_zero] at hk
        obtain ⟨i, d, hd, hneg', hcount⟩ := ih hk
        refine ⟨i + 1, d, hd, hneg', ?_⟩
        rw [List.take_succ_cons, countNegated_cons, if_neg hneg, hcount, add_zero]

theorem combination_unitList {n k : ℕ} (hk : k < n) (v : K) (z : ℕ → K) :
    combination (unitList n k v) z = v * z k :=
  combination_unit hk v z

@[simp] theorem length_unitList (n k : ℕ) (v : K) : (unitList n k v).length = n := by
  simp [unitList]

section Row

variable {n m a index artificial : ℕ} {c : List K × K} (hn : c.1.length = n) (hindex : index < m)
  (hart : isNegated settings c.2 = true → artificial < a)
include hn

theorem length_standardRow :
    (standardRow settings n m a index artificial c).line.coefs.length = n + m + a := by
  unfold standardRow
  split <;> simp [hn] <;> omega

include hindex hart

/-- **A row says what its constraint says about the variables and the slack.** -/
theorem eval_standardRow (z : ℕ → K) :
    (standardRow settings n m a index artificial c).line.eval z =
      rowSign settings c.2 * (combination c.1 z + z (n + index)) +
        if isNegated settings c.2 then z (n + m + artificial) else 0 := by
  rw [standardRow, rowSign]
  split
  · rename_i hneg
    rw [Line.eval, combination_append, combination_append, combination_map_mul,
      combination_unitList hindex, combination_unitList (hart hneg)]
    simp only [List.length_append, List.length_map, length_unitList, hn]
    ring
  · rw [Line.eval, combination_append, combination_append, combination_map_mul,
      combination_unitList hindex, combination_replicate_zero]
    simp only [List.length_map, hn]
    ring

/-- The coefficients of a row. -/
theorem coef_standardRow (j : ℕ) :
    (standardRow settings n m a index artificial c).line.coef j =
      rowSign settings c.2 * (c.1.getD j 0 + if n + index = j then 1 else 0) +
        if isNegated settings c.2 ∧ n + m + artificial = j then 1 else 0 := by
  have h := eval_standardRow hn hindex hart fun i => if i = j then 1 else 0
  rw [Line.eval, combination_single, combination_single, mul_one, mul_one] at h
  rw [Line.coef, h]
  congr 1
  split_ifs <;> simp_all

end Row

theorem rhs_standardRow (n m a index artificial : ℕ) (c : List K × K) :
    (standardRow settings n m a index artificial c).line.rhs = rowSign settings c.2 * c.2 := by
  rw [standardRow, rowSign]
  split <;> rfl

theorem rowSign_ne_zero (settings : LinearProgram.Settings K) (limit : K) :
    rowSign settings limit ≠ 0 := by
  unfold rowSign
  split <;> norm_num

/-! ## The tableau -/

section Program

variable {p : LinearProgram K} (hp : p.Shaped)

/-- The row of the constraint with number `i`. -/
def rowOf (settings : LinearProgram.Settings K) (p : LinearProgram K) (i : ℕ) (c : List K × K) :
    TableauRow K :=
  standardRow settings p.numVars p.numConstraints (standardForm settings p).numArtificial i
    (countNegated settings ((p.rows.zip p.limits).take i)) c

theorem rows_standardForm (i : ℕ) :
    (standardForm settings p).tableau.rows[i]? =
      ((p.rows.zip p.limits)[i]?).map (rowOf settings p i) := by
  show (standardRows _ _ _ _ _ _ _)[i]? = _
  rw [standardRows_getElem?]
  simp only [zero_add]
  rfl

theorem numCols_standardForm (settings : LinearProgram.Settings K) (p : LinearProgram K) :
    (standardForm settings p).tableau.numCols =
      p.numVars + p.numConstraints + (standardForm settings p).numArtificial := by
  simp [standardForm, numCols]

include hp

omit [ExactScalar K] in
theorem length_constraints : (p.rows.zip p.limits).length = p.numConstraints := by
  rw [List.length_zip, hp.rows_length]
  exact min_self _

/-- There are as many artificial columns as negated constraints. -/
theorem numArtificial_eq :
    (standardForm settings p).numArtificial = countNegated settings (p.rows.zip p.limits) := by
  have hsnd : (p.rows.zip p.limits).map Prod.snd = p.limits :=
    List.map_snd_zip (by rw [hp.rows_length]; exact le_rfl)
  calc p.limits.countP (isNegated settings)
      = ((p.rows.zip p.limits).map Prod.snd).countP (isNegated settings) := by rw [hsnd]
    _ = countNegated settings (p.rows.zip p.limits) := List.countP_map

variable (settings) in
/-- What is needed to read the row of a constraint. -/
theorem constraint_bounds {i : ℕ} {c : List K × K} (hc : (p.rows.zip p.limits)[i]? = some c) :
    c.1.length = p.numVars ∧ i < p.numConstraints ∧
      (isNegated settings c.2 = true → countNegated settings ((p.rows.zip p.limits).take i) <
        (standardForm settings p).numArtificial) := by
  have hi : i < (p.rows.zip p.limits).length := (List.getElem?_eq_some_iff.1 hc).1
  refine ⟨hp.row_length _ (List.of_mem_zip (List.mem_of_getElem? hc)).1,
    length_constraints hp ▸ hi, fun hneg => ?_⟩
  have hlt := countNegated_lt hi hc hneg
  rwa [List.take_length, ← numArtificial_eq hp] at hlt

theorem eval_rowOf {i : ℕ} {c : List K × K} (hc : (p.rows.zip p.limits)[i]? = some c)
    (z : ℕ → K) :
    (rowOf settings p i c).line.eval z =
      rowSign settings c.2 * (combination c.1 z + z (p.numVars + i)) +
        if isNegated settings c.2 then
          z (p.numVars + p.numConstraints + countNegated settings ((p.rows.zip p.limits).take i))
        else 0 := by
  obtain ⟨hn, hi, hart⟩ := constraint_bounds settings hp hc
  exact eval_standardRow hn hi hart z

theorem coef_rowOf {i : ℕ} {c : List K × K} (hc : (p.rows.zip p.limits)[i]? = some c) (j : ℕ) :
    (rowOf settings p i c).line.coef j =
      rowSign settings c.2 * (c.1.getD j 0 + if p.numVars + i = j then 1 else 0) +
        if isNegated settings c.2 ∧ p.numVars + p.numConstraints +
          countNegated settings ((p.rows.zip p.limits).take i) = j then 1 else 0 := by
  obtain ⟨hn, hi, hart⟩ := constraint_bounds settings hp hc
  exact coef_standardRow hn hi hart j

omit hp in
/-- The row of a negated constraint is solved for its artificial column. -/
theorem basic_rowOf_of_negated {i : ℕ} {c : List K × K} (hneg : isNegated settings c.2 = true) :
    (rowOf settings p i c).basic = p.numVars + p.numConstraints +
      countNegated settings ((p.rows.zip p.limits).take i) := by
  rw [rowOf, standardRow, if_pos hneg]

/-- The basic column of a row is the artificial one of a negated constraint, else the slack. -/
theorem unit_rowOf {i j : ℕ} {c d : List K × K} (hc : (p.rows.zip p.limits)[i]? = some c)
    (hd : (p.rows.zip p.limits)[j]? = some d) :
    (rowOf settings p j d).line.coef (rowOf settings p i c).basic = if j = i then 1 else 0 := by
  obtain ⟨-, hi, -⟩ := constraint_bounds settings hp hc
  obtain ⟨hn, hj, -⟩ := constraint_bounds settings hp hd
  by_cases hneg : isNegated settings c.2 = true
  · rw [basic_rowOf_of_negated hneg, coef_rowOf hp hd, List.getD_eq_default _ _ (by omega),
      if_neg (by omega), zero_add, mul_zero, zero_add]
    by_cases hji : j = i
    · subst hji
      obtain rfl := Option.some.inj (hc.symm.trans hd)
      rw [if_pos ⟨hneg, rfl⟩, if_pos rfl]
    · -- different negated constraints have different artificial columns
      rw [if_neg hji, if_neg]
      rintro ⟨hneg', heq⟩
      rcases lt_or_gt_of_ne hji with hlt | hgt
      · have := countNegated_lt hlt hd hneg'
        omega
      · have := countNegated_lt hgt hc hneg
        omega
  · have hbasic : (rowOf settings p i c).basic = p.numVars + i := by
      rw [rowOf, standardRow, if_neg hneg]
    have hart : ¬(isNegated settings d.2 = true ∧ p.numVars + p.numConstraints +
        countNegated settings ((p.rows.zip p.limits).take j) = p.numVars + i) := by
      rintro ⟨-, h⟩
      omega
    rw [hbasic, coef_rowOf hp hd, List.getD_eq_default _ _ (by omega), zero_add, if_neg hart,
      add_zero]
    by_cases hji : j = i
    · subst hji
      obtain rfl := Option.some.inj (hc.symm.trans hd)
      rw [if_pos rfl, if_pos rfl, rowSign, if_neg hneg, one_mul]
    · rw [if_neg hji, if_neg (by omega), mul_zero]

/-- **The standard form is canonical.** -/
theorem standardForm_canonical : (standardForm settings p).tableau.Canonical where
  width r hr := by
    obtain ⟨i, hi⟩ := List.mem_iff_getElem?.1 hr
    rw [rows_standardForm, Option.map_eq_some_iff] at hi
    obtain ⟨c, hc, rfl⟩ := hi
    rw [numCols_standardForm]
    exact length_standardRow (constraint_bounds settings hp hc).1
  basic_lt r hr := by
    obtain ⟨i, hi⟩ := List.mem_iff_getElem?.1 hr
    rw [rows_standardForm, Option.map_eq_some_iff] at hi
    obtain ⟨c, hc, rfl⟩ := hi
    obtain ⟨-, hlt, hart⟩ := constraint_bounds settings hp hc
    rw [numCols_standardForm, rowOf, standardRow]
    split
    · rename_i hneg
      have := hart hneg
      simp only
      omega
    · simp only
      omega
  unit {i j r s} hi hj := by
    rw [rows_standardForm, Option.map_eq_some_iff] at hi hj
    obtain ⟨c, hc, rfl⟩ := hi
    obtain ⟨d, hd, rfl⟩ := hj
    exact unit_rowOf hp hc hd
  priced r _ := by
    have h := combination_replicate_zero (K := K)
      (p.numVars + p.numConstraints + (standardForm settings p).numArtificial)
      fun j => if j = r.basic then 1 else 0
    rw [combination_single, mul_one] at h
    exact h

/-- Only a limit that is negative within the tolerance is a negative right-hand side, and the slack
is basic in its row. -/
theorem standardForm_rhs_cases (htol : 0 ≤ settings.feasTol) {r : TableauRow K}
    (hr : r ∈ (standardForm settings p).tableau.rows) :
    0 ≤ r.line.rhs ∨ (r.basic < p.numVars + p.numConstraints ∧ r.line.rhs ∈ p.limits ∧
      -settings.feasTol ≤ r.line.rhs ∧ r.line.rhs < 0) := by
  obtain ⟨i, hi⟩ := List.mem_iff_getElem?.1 hr
  rw [rows_standardForm, Option.map_eq_some_iff] at hi
  obtain ⟨c, hc, rfl⟩ := hi
  obtain ⟨-, hlt, -⟩ := constraint_bounds settings hp hc
  have hrhs : (rowOf settings p i c).line.rhs = rowSign settings c.2 * c.2 := rhs_standardRow ..
  rw [hrhs, rowSign]
  by_cases hneg : isNegated settings c.2 = true
  · have hlimit : c.2 < -settings.feasTol := of_decide_eq_true hneg
    rw [if_pos hneg]
    exact .inl (by linarith)
  · have hlimit : -settings.feasTol ≤ c.2 := not_lt.1 fun h => hneg (decide_eq_true h)
    rw [if_neg hneg, one_mul]
    rcases le_or_gt 0 c.2 with hle | hgt
    · exact .inl hle
    · refine .inr ⟨?_, (List.of_mem_zip (List.mem_of_getElem? hc)).2, hlimit, hgt⟩
      rw [rowOf, standardRow, if_neg hneg]
      exact Nat.add_lt_add_left hlt _

/-- With tolerance zero the signs make all right-hand sides nonnegative. -/
theorem standardForm_rhsNonneg (hs : settings.IsExact) :
    (standardForm settings p).tableau.RhsNonneg := by
  intro r hr
  obtain hnonneg | ⟨-, -, hge, -⟩ := standardForm_rhs_cases hp hs.feasTol_eq.ge hr
  · exact hnonneg
  · rwa [hs.feasTol_eq, neg_zero] at hge

/-- **The standard form is a proper tableau.** -/
theorem standardForm_proper (hs : settings.IsExact) : (standardForm settings p).tableau.Proper :=
  ⟨standardForm_canonical hp, standardForm_rhsNonneg hp hs⟩

/-! ## Slack equations -/

omit hp in
/-- Each constraint with its slack added holds with equality. -/
def SlackForm (p : LinearProgram K) (z : ℕ → K) : Prop :=
  ∀ i c, (p.rows.zip p.limits)[i]? = some c → combination c.1 z + z (p.numVars + i) = c.2

/-- **Without artificial part the standard form is the slack equations.** -/
theorem solves_standardForm_iff {z : ℕ → K}
    (hz : ∀ j, p.numVars + p.numConstraints ≤ j → z j = 0) :
    (standardForm settings p).tableau.Solves z ↔ SlackForm p z := by
  have hrow : ∀ {i c}, (p.rows.zip p.limits)[i]? = some c →
      ((rowOf settings p i c).line.Holds z ↔ combination c.1 z + z (p.numVars + i) = c.2) := by
    intro i c hc
    have hart : z (p.numVars + p.numConstraints +
        countNegated settings ((p.rows.zip p.limits).take i)) = 0 := hz _ (by omega)
    rw [Line.Holds, eval_rowOf hp hc, hart, ite_self, add_zero, rowOf, rhs_standardRow]
    exact mul_right_inj' (rowSign_ne_zero _ _)
  constructor
  · intro h i c hc
    exact (hrow hc).1 (h _ (List.mem_of_getElem? (by rw [rows_standardForm, hc]; rfl)))
  · intro h r hr
    obtain ⟨i, hi⟩ := List.mem_iff_getElem?.1 hr
    rw [rows_standardForm, Option.map_eq_some_iff] at hi
    obtain ⟨c, hc, rfl⟩ := hi
    exact (hrow hc).2 (h i c hc)

/-- The values of a point followed by what each constraint leaves of its limit. -/
def slackPoint (p : LinearProgram K) (x : List K) : ℕ → K := fun j =>
  if j < p.numVars then x.getD j 0
  else (((p.rows.zip p.limits)[j - p.numVars]?).map fun c => c.2 - Scalar.dot c.1 x).getD 0

omit hp in
theorem slackPoint_of_lt {j : ℕ} (hj : j < p.numVars) (x : List K) :
    slackPoint p x j = x.getD j 0 := if_pos hj

omit hp in
theorem slackPoint_add (x : List K) (i : ℕ) :
    slackPoint p x (p.numVars + i) =
      (((p.rows.zip p.limits)[i]?).map fun c => c.2 - Scalar.dot c.1 x).getD 0 := by
  rw [slackPoint, if_neg (by omega), Nat.add_sub_cancel_left]

/-- A point and its slacks solve the slack equations. -/
theorem slackForm_slackPoint (x : List K) : SlackForm p (slackPoint p x) := by
  intro i c hc
  have hn := (constraint_bounds .standard hp hc).1
  have hcomb : combination c.1 (slackPoint p x) = Scalar.dot c.1 x := by
    rw [dot_eq_combination]
    exact combination_congr fun j hj => slackPoint_of_lt (hn ▸ hj) x
  rw [hcomb, slackPoint_add, hc]
  exact add_sub_cancel _ _

omit hp in
/-- At a feasible point no slack is negative. -/
theorem slackPoint_nonneg {x : List K} (hx : p.Feasible x) (j : ℕ) : 0 ≤ slackPoint p x j := by
  rcases lt_or_ge j p.numVars with hj | hj
  · have hj' : j < x.length := hx.length_eq ▸ hj
    rw [slackPoint_of_lt hj, List.getD_eq_getElem _ _ hj']
    exact hx.nonneg _ (List.getElem_mem hj')
  · obtain ⟨i, rfl⟩ := Nat.exists_eq_add_of_le hj
    rw [slackPoint_add]
    cases hc : (p.rows.zip p.limits)[i]? with
    | none => exact le_rfl
    | some c => exact sub_nonneg.2 (hx.le_limit c (List.mem_of_getElem? hc))

/-- There are no more slacks than constraints. -/
theorem slackPoint_of_le (x : List K) {j : ℕ} (hj : p.numVars + p.numConstraints ≤ j) :
    slackPoint p x j = 0 := by
  obtain ⟨i, rfl⟩ := Nat.exists_eq_add_of_le (Nat.le_of_add_right_le hj)
  have hlen := length_constraints hp
  rw [slackPoint_add, List.getElem?_eq_none (by omega)]
  rfl

/-- The first coordinates of values that solve the slack equations. -/
def truncate (p : LinearProgram K) (z : ℕ → K) : List K := (List.range p.numVars).map z

omit hp in
theorem dot_truncate {cs : List K} (hcs : cs.length = p.numVars) (z : ℕ → K) :
    Scalar.dot cs (truncate p z) = combination cs z := by
  rw [dot_eq_combination]
  apply combination_congr
  intro j hj
  rw [truncate, List.getD_eq_getElem _ _ (by simpa [hcs] using hj)]
  simp

/-- **Values that solve the slack equations without negative parts are feasible.** -/
theorem feasible_of_slack {z : ℕ → K} (hz : SlackForm p z) (hnonneg : ∀ j, 0 ≤ z j) :
    p.Feasible (truncate p z) where
  length_eq := by rw [truncate, List.length_map, List.length_range]
  nonneg v hv := by
    obtain ⟨j, -, rfl⟩ := List.mem_map.1 hv
    exact hnonneg j
  le_limit c hc := by
    obtain ⟨i, hi⟩ := List.mem_iff_getElem?.1 hc
    have hn := (constraint_bounds .standard hp hi).1
    rw [dot_truncate hn, ← hz i c hi]
    exact le_add_of_nonneg_right (hnonneg _)

end Program

end Simplex

end BranchBound
