import BranchBound.Proofs.Combination
import BranchBound.Tableau

/-!
# Lines as equations

A line of a tableau is read as an equation between a linear combination of the variables and its
right-hand side.  The operations on lines are described by what they do to coefficients, right-hand
side and combination; over exact scalars leaving out a subtraction with factor zero makes no
difference (`eliminate_eq_minus`).
-/

namespace BranchBound

variable {K : Type} [ExactScalar K]

namespace Line

/-- The coefficient of a variable, zero past the last column. -/
def coef (l : Line K) (j : ℕ) : K := l.coefs.getD j 0

/-- The left-hand side at given values of the variables. -/
def eval (l : Line K) (z : ℕ → K) : K := combination l.coefs z

/-- The equation holds. -/
def Holds (l : Line K) (z : ℕ → K) : Prop := l.eval z = l.rhs

theorem entry?_of_lt {l : Line K} {col : ℕ} (h : col < l.coefs.length) :
    l.entry? col = some (l.coef col) := by
  show l.entries[col]? = some (l.coef col)
  rw [entries, List.getElem?_append_left h, coef, List.getD_eq_getElem?_getD,
    List.getElem?_eq_getElem h, Option.getD_some]

theorem coef_of_le {l : Line K} {j : ℕ} (h : l.coefs.length ≤ j) : l.coef j = 0 :=
  List.getD_eq_default _ _ h

omit [ExactScalar K] in
theorem take_entries {l : Line K} {n : ℕ} (h : n ≤ l.coefs.length) :
    l.entries.take n = l.coefs.take n := by
  rw [entries, List.take_append_of_le_length h]

/-- The first entries of a line are its first coefficients. -/
theorem getElem?_take_entries {l : Line K} {n : ℕ} (h : n ≤ l.coefs.length) (j : ℕ) :
    (l.entries.take n)[j]? = if j < n then some (l.coef j) else none := by
  rw [take_entries h, List.getElem?_take]
  split
  · rename_i hj
    rw [List.getElem?_eq_getElem (hj.trans_le h), coef, List.getD_eq_getElem _ _ (hj.trans_le h)]
  · rfl

omit [ExactScalar K] in
theorem length_take_entries {l : Line K} {n : ℕ} (h : n ≤ l.coefs.length) :
    (l.entries.take n).length = n := by
  rw [take_entries h, List.length_take, min_eq_left h]

/-- Searching the first entries of a line finds the first coefficient that passes the test. -/
theorem findIdx?_take_entries {l : Line K} {n : ℕ} (h : n ≤ l.coefs.length) (test : K → Bool) :
    ((l.entries.take n).findIdx? test = none ∧ ∀ j < n, test (l.coef j) = false) ∨
    ∃ col, (l.entries.take n).findIdx? test = some col ∧ col < n ∧ test (l.coef col) = true ∧
      ∀ j < col, test (l.coef j) = false := by
  have hget := getElem?_take_entries h
  have hlen := length_take_entries h
  cases hfind : (l.entries.take n).findIdx? test with
  | none =>
      refine .inl ⟨rfl, ?_⟩
      intro j hj
      have hmem := List.mem_of_getElem? ((hget j).trans (if_pos hj))
      exact List.findIdx?_eq_none_iff.1 hfind _ hmem
  | some col =>
      obtain ⟨hcol, htest, hfirst⟩ := List.findIdx?_eq_some_iff_getElem.1 hfind
      have hentry : ∀ j (hj : j < (l.entries.take n).length),
          (l.entries.take n)[j] = l.coef j := by
        intro j hj
        have := hget j
        rw [List.getElem?_eq_getElem hj, if_pos (hlen ▸ hj)] at this
        exact Option.some.inj this
      refine .inr ⟨col, rfl, hlen ▸ hcol, by rwa [hentry] at htest, ?_⟩
      intro j hj
      have := hfirst j hj
      rw [hentry] at this
      simpa using this

/-- Two lines of equal width with the same coefficients and right-hand side are equal. -/
theorem ext_coef {l k : Line K} (hlen : l.coefs.length = k.coefs.length)
    (hcoef : ∀ j < l.coefs.length, l.coef j = k.coef j) (hrhs : l.rhs = k.rhs) : l = k := by
  obtain ⟨cs, a⟩ := l
  obtain ⟨ds, b⟩ := k
  obtain rfl : a = b := hrhs
  congr 1
  apply List.ext_getElem hlen
  intro j hj hj'
  have := hcoef j hj
  rwa [coef, coef, List.getD_eq_getElem _ _ hj, List.getD_eq_getElem _ _ hj'] at this

/-- Two lines of equal width that lack the same at all values are equal. -/
theorem ext_residual {l k : Line K} (hlen : l.coefs.length = k.coefs.length)
    (h : ∀ w, k.rhs - k.eval w = l.rhs - l.eval w) : k = l := by
  have hrhs : k.rhs = l.rhs := by
    have := h fun _ => 0
    simpa [eval, combination] using this
  refine ext_coef hlen.symm (fun j _ => ?_) hrhs
  have := h fun i => if i = j then 1 else 0
  rw [hrhs, eval, eval, combination_single, combination_single, mul_one, mul_one] at this
  exact sub_right_injective this

/-! ## Division -/

@[simp] theorem length_divideBy (l : Line K) (p : K) :
    (l.divideBy p).coefs.length = l.coefs.length := by
  simp [divideBy]

@[simp] theorem coef_divideBy (l : Line K) (p : K) (j : ℕ) :
    (l.divideBy p).coef j = l.coef j / p := by
  rw [coef, coef, divideBy, List.getD_eq_getElem?_getD, List.getD_eq_getElem?_getD,
    List.getElem?_map]
  cases l.coefs[j]? with
  | none => simp
  | some v => rfl

@[simp] theorem rhs_divideBy (l : Line K) (p : K) : (l.divideBy p).rhs = l.rhs / p := rfl

theorem eval_divideBy (l : Line K) (p : K) (z : ℕ → K) :
    (l.divideBy p).eval z = l.eval z / p := by
  have h : (l.divideBy p).coefs = l.coefs.map (fun v => p⁻¹ * v) := by
    unfold divideBy
    apply List.map_congr_left
    intro v _
    rw [div_eq_mul_inv, mul_comm]
  rw [eval, h, combination_map_mul, div_eq_mul_inv, mul_comm, eval]

theorem holds_divideBy {l : Line K} {p : K} (hp : p ≠ 0) (z : ℕ → K) :
    (l.divideBy p).Holds z ↔ l.Holds z := by
  rw [Holds, Holds, eval_divideBy, rhs_divideBy, div_left_inj' hp]

/-! ## Subtraction of a multiple -/

variable {l o : Line K}

theorem length_minus (h : l.coefs.length = o.coefs.length) (f : K) :
    (l.minus f o).coefs.length = l.coefs.length := by
  simp [minus, h]

theorem coef_minus (h : l.coefs.length = o.coefs.length) (f : K) (j : ℕ) :
    (l.minus f o).coef j = l.coef j - f * o.coef j := by
  by_cases hj : j < l.coefs.length
  · have hj' : j < o.coefs.length := h ▸ hj
    rw [coef, coef, coef, minus, List.getD_eq_getElem _ _ (by simpa using ⟨hj, hj'⟩),
      List.getElem_zipWith, List.getD_eq_getElem _ _ hj, List.getD_eq_getElem _ _ hj']
  · rw [coef_of_le (by rw [length_minus h]; omega), coef_of_le (by omega), coef_of_le (by omega)]
    ring

@[simp] theorem rhs_minus (f : K) : (l.minus f o).rhs = l.rhs - f * o.rhs := rfl

theorem eval_minus (h : l.coefs.length = o.coefs.length) (f : K) (z : ℕ → K) :
    (l.minus f o).eval z = l.eval z - f * o.eval z := by
  have hc := coef_minus h f
  simp only [coef] at hc
  rw [eval, eval, eval, combination, combination, combination, length_minus h, ← h,
    Finset.mul_sum, ← Finset.sum_sub_distrib]
  apply Finset.sum_congr rfl
  intro j _
  rw [hc]
  ring

/-- **Leaving out a subtraction with factor zero changes nothing.** -/
theorem eliminate_eq_minus (h : l.coefs.length = o.coefs.length) (f : K) :
    l.eliminate f o = l.minus f o := by
  unfold eliminate
  split
  · rename_i hf
    rw [ExactScalar.isZero_iff] at hf
    refine ext_coef (length_minus h f).symm (fun j _ => ?_) ?_
    · rw [coef_minus h, hf]
      ring
    · rw [rhs_minus, hf]
      ring
  · rfl

/-! ## The first columns -/

theorem coef_firstColumns {n j : ℕ} (h : n ≤ l.coefs.length) :
    (l.firstColumns n).coef j = if j < n then l.coef j else 0 := by
  rw [coef, firstColumns, take_entries h, coef, List.getD_eq_getElem?_getD, List.getElem?_take]
  split
  · rw [List.getD_eq_getElem?_getD]
  · rfl

omit [ExactScalar K] in
theorem length_firstColumns {n : ℕ} (h : n ≤ l.coefs.length) :
    (l.firstColumns n).coefs.length = n := by
  rw [firstColumns, take_entries h, List.length_take, min_eq_left h]

omit [ExactScalar K] in
@[simp] theorem rhs_firstColumns (n : ℕ) : (l.firstColumns n).rhs = l.rhs := rfl

/-- The first columns see the values of their variables and zero for all others. -/
theorem eval_firstColumns {n : ℕ} (h : n ≤ l.coefs.length) (z : ℕ → K) :
    (l.firstColumns n).eval z = l.eval (firstValues n z) := by
  have hc : ∀ j, (l.firstColumns n).coefs.getD j 0 = if j < n then l.coefs.getD j 0 else 0 :=
    fun j => coef_firstColumns h
  rw [eval, combination, length_firstColumns h, eval, combination,
    ← Finset.sum_subset (Finset.range_subset_range.2 h)]
  · apply Finset.sum_congr rfl
    intro j hj
    rw [Finset.mem_range] at hj
    rw [hc, if_pos hj, firstValues_of_lt hj]
  · intro j _ hj
    rw [Finset.mem_range, not_lt] at hj
    rw [firstValues_of_le hj, mul_zero]

end Line

end BranchBound
