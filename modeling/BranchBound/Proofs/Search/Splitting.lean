import BranchBound.Proofs.Feasible
import BranchBound.IntegerProgram
import BranchBound.Search.Branching

/-!
# Splits lose no whole-number point

A point that no rule splits is integral within the tolerance, and only such a point
(`split?_eq_none_iff`).  The two halves of a split are at the floor and at the ceiling of the split
variable's value, so every point of whole numbers lies in one of them (`mem_half_of_whole`).  With a
tolerance that is not negative the value is not whole: no point lies in both halves
(`IsSplit.not_both`), and the point that is split lies in neither (`IsSplit.not_admits`).
-/

namespace BranchBound

variable {K : Type} [ExactScalar K]

/-! ## Points under bounds -/

/-- A bound admits a point. -/
def Bound.Admits (b : Bound K) (y : List K) : Prop :=
  match b.direction with
  | .upper => y.getD b.var 0 ≤ b.value
  | .lower => b.value ≤ y.getD b.var 0

/-- All bounds admit the point. -/
def Within (bounds : List (Bound K)) (y : List K) : Prop := ∀ b ∈ bounds, b.Admits y

theorem within_nil (y : List K) : Within [] y := by
  simp [Within]

theorem within_append_singleton {bounds : List (Bound K)} {b : Bound K} {y : List K} :
    Within (bounds ++ [b]) y ↔ Within bounds y ∧ b.Admits y := by
  simp only [Within, List.mem_append, List.mem_singleton, or_imp, forall_and, forall_eq]

/-- A feasible point of whole numbers. -/
structure IntegerProgram.Feasible (p : IntegerProgram K) (y : List K) : Prop where
  relaxed : p.relaxation.Feasible y
  whole : ∀ v ∈ y, IsWhole v

/-- Value of the objective at a point. -/
def IntegerProgram.valueAt (p : IntegerProgram K) (y : List K) : K := p.relaxation.valueAt y

theorem isWhole_getD {y : List K} (hy : ∀ v ∈ y, IsWhole v) (i : ℕ) : IsWhole (y.getD i 0) := by
  by_cases hi : i < y.length
  · rw [List.getD_eq_getElem _ _ hi]
    exact hy _ (List.getElem_mem hi)
  · rw [List.getD_eq_default _ _ (not_lt.1 hi)]
    exact ⟨0, Int.cast_zero.symm⟩

/-- With tolerance zero an integral point consists of whole numbers. -/
theorem isWhole_of_isIntegral {x : List K} (h : IntegerProgram.isIntegral x 0 = true) :
    ∀ v ∈ x, IsWhole v := by
  intro v hv
  rw [IntegerProgram.isIntegral, List.all_eq_true] at h
  exact isWhole_of_fractionality_le_zero (of_decide_eq_true (h v hv))

namespace Search.Branching

/-! ## Eligible variables -/

/-- No variable is eligible exactly if the point is integral. -/
theorem eligible_eq_nil_iff {tol : K} {index : ℕ} {x : List K} :
    eligible tol index x = [] ↔ IntegerProgram.isIntegral x tol = true := by
  induction x generalizing index with
  | nil => simp [eligible, IntegerProgram.isIntegral]
  | cons v rest ih =>
      rw [eligible, IntegerProgram.isIntegral, List.all_cons, Bool.and_eq_true,
        decide_eq_true_iff]
      by_cases hv : tol < Scalar.fractionality v
      · simp [hv]
      · simp only [if_neg hv, ih, not_lt.1 hv, true_and]
        rfl

omit [ExactScalar K] in
/-- Eligible variables have a value farther than the tolerance from every whole number. -/
theorem exists_value_of_mem_eligible [Scalar K] {tol : K} {index : ℕ} {x : List K} {c : ℕ × K}
    (h : c ∈ eligible tol index x) :
    ∃ k v, c.1 = index + k ∧ x[k]? = some v ∧ tol < Scalar.fractionality v := by
  induction x generalizing index with
  | nil => simp [eligible] at h
  | cons v rest ih =>
      rw [eligible] at h
      have hrest : c ∈ eligible tol (index + 1) rest →
          ∃ k w, c.1 = index + k ∧ (v :: rest)[k]? = some w ∧ tol < Scalar.fractionality w := by
        intro hc
        obtain ⟨k, w, hk, hw⟩ := ih hc
        exact ⟨k + 1, w, by omega, hw⟩
      split at h
      · rename_i hv
        rcases List.mem_cons.1 h with rfl | hc
        · exact ⟨0, v, rfl, rfl, hv⟩
        · exact hrest hc
      · exact hrest h

/-! ## The selected variable -/

omit [ExactScalar K] in
/-- The best of several candidates is the best so far or one of them. -/
theorem foldl_better_mem [Scalar K] {scores : List (ℕ × K)} {best : Option (ℕ × K)} {c : ℕ × K}
    (h : scores.foldl better best = some c) : best = some c ∨ c ∈ scores := by
  induction scores generalizing best with
  | nil => exact .inl h
  | cons d scores ih =>
      rw [List.foldl_cons] at h
      rcases ih h with hbest | hmem
      · cases best with
        | none =>
            obtain rfl := Option.some.inj hbest
            exact .inr List.mem_cons_self
        | some b =>
            rw [better] at hbest
            split at hbest
            · exact .inl hbest
            · obtain rfl := Option.some.inj hbest
              exact .inr List.mem_cons_self
      · exact .inr (List.mem_cons_of_mem _ hmem)

omit [ExactScalar K] in
/-- With a candidate there is a best one. -/
theorem foldl_better_ne_none [Scalar K] {scores : List (ℕ × K)} {best : Option (ℕ × K)}
    (h : best ≠ none ∨ scores ≠ []) : scores.foldl better best ≠ none := by
  induction scores generalizing best with
  | nil => simpa using h
  | cons d scores ih =>
      refine ih (.inl ?_)
      cases best with
      | none => exact Option.some_ne_none _
      | some b =>
          rw [better]
          split <;> exact Option.some_ne_none _

omit [ExactScalar K] in
theorem bestScore_spec [Scalar K] (scores : List (ℕ × K)) :
    (bestScore scores = none ∧ scores = []) ∨ ∃ c ∈ scores, bestScore scores = some c.1 := by
  unfold bestScore
  cases h : scores.foldl better none with
  | none =>
      refine .inl ⟨rfl, ?_⟩
      by_contra hne
      exact foldl_better_ne_none (.inr hne) h
  | some c => exact .inr ⟨c, (foldl_better_mem h).resolve_left (Option.some_ne_none c).symm, rfl⟩

omit [ExactScalar K] in
/-- **Every rule selects an eligible variable if there is one.** -/
theorem select_spec [Scalar K] (rule : BranchingRule) (objective : List K) (tol : K) (x : List K) :
    (select rule objective tol x = none ∧ eligible tol 0 x = []) ∨
    ∃ c ∈ eligible tol 0 x, select rule objective tol x = some c.1 := by
  cases rule with
  | firstFractional =>
      unfold select
      cases eligible tol 0 x with
      | nil => exact .inl ⟨rfl, rfl⟩
      | cons c rest => exact .inr ⟨c, List.mem_cons_self, rfl⟩
  | mostFractional => exact bestScore_spec _
  | maxCoefficient =>
      unfold select
      obtain ⟨hnone, hnil⟩ | ⟨c, hc, hsome⟩ :=
        bestScore_spec ((eligible tol 0 x).map (weigh objective))
      · exact .inl ⟨hnone, List.map_eq_nil_iff.1 hnil⟩
      · obtain ⟨d, hd, rfl⟩ := List.mem_map.1 hc
        exact .inr ⟨d, hd, hsome⟩

/-! ## The split -/

/-- **A point is split exactly if it is not integral.** -/
theorem split?_eq_none_iff (rule : BranchingRule) (objective : List K) (tol : K) (x : List K) :
    split? rule objective tol x = none ↔ IntegerProgram.isIntegral x tol = true := by
  obtain ⟨hnone, hnil⟩ | ⟨c, hc, hsome⟩ := select_spec rule objective tol x
  · rw [split?, hnone]
    exact iff_of_true rfl (eligible_eq_nil_iff.1 hnil)
  · obtain ⟨k, v, hk, hv, -⟩ := exists_value_of_mem_eligible hc
    rw [Nat.zero_add] at hk
    rw [split?, hsome]
    refine iff_of_false ?_ fun hint => ?_
    · show ¬ (x[c.1]? >>= _) = none
      rw [hk, hv]
      exact Option.some_ne_none _
    · rw [eligible_eq_nil_iff.2 hint] at hc
      exact List.not_mem_nil hc

/-- What a split is: its halves are at the floor and at the ceiling of the variable's value, which
is farther than the tolerance from every whole number. -/
structure IsSplit [Scalar K] (tol : K) (x : List K) (d : Decision K) : Prop where
  value_eq : x[d.var]? = some d.value
  lt_fractionality : tol < Scalar.fractionality d.value
  down_eq : d.down = Bound.down d.var d.value
  up_eq : d.up = Bound.up d.var d.value

omit [ExactScalar K] in
theorem isSplit_of_split? [Scalar K] {rule : BranchingRule} {objective : List K} {tol : K}
    {x : List K} {d : Decision K} (h : split? rule objective tol x = some d) : IsSplit tol x d := by
  simp only [split?, Option.bind_eq_bind, Option.bind_eq_some_iff, Option.pure_def,
    Option.some.injEq] at h
  obtain ⟨var, hvar, v, hv, rfl⟩ := h
  obtain ⟨hnone, -⟩ | ⟨c, hc, hsome⟩ := select_spec rule objective tol x
  · rw [hnone] at hvar
    cases hvar
  · obtain ⟨k, w, hk, hw, hlt⟩ := exists_value_of_mem_eligible hc
    obtain rfl : c.1 = var := Option.some.inj (hsome.symm.trans hvar)
    rw [Nat.zero_add] at hk
    rw [hk, hw] at hv
    obtain rfl := Option.some.inj hv
    exact ⟨by rw [hk, hw], hlt, rfl, rfl⟩

/-- **Every point of whole numbers lies in one of the halves.** -/
theorem mem_half_of_whole {rule : BranchingRule} {objective : List K} {tol : K} {x : List K}
    {d : Decision K} (h : split? rule objective tol x = some d) {y : List K}
    (hy : ∀ v ∈ y, IsWhole v) : d.down.Admits y ∨ d.up.Admits y := by
  have hd := isSplit_of_split? h
  rw [hd.down_eq, hd.up_eq]
  exact (isWhole_getD hy d.var).le_floor_or_ceil_le d.value

namespace IsSplit

omit [ExactScalar K] in
theorem var_lt_length [Scalar K] {tol : K} {x : List K} {d : Decision K} (h : IsSplit tol x d) :
    d.var < x.length :=
  (List.getElem?_eq_some_iff.1 h.value_eq).1

variable {tol : K} {x : List K} {d : Decision K} (h : IsSplit tol x d)
include h

theorem getD_var : x.getD d.var 0 = d.value := by
  rw [List.getD_eq_getElem?_getD, h.value_eq, Option.getD_some]

variable (htol : 0 ≤ tol)
include htol

theorem not_isWhole : ¬ IsWhole d.value := not_isWhole_of_lt_fractionality htol h.lt_fractionality

/-- **The point that is split lies in neither half.** -/
theorem not_admits : ¬ d.down.Admits x ∧ ¬ d.up.Admits x := by
  obtain ⟨hfloor, hceil⟩ := floor_lt_and_lt_ceil (h.not_isWhole htol)
  rw [h.down_eq, h.up_eq]
  show ¬ x.getD d.var 0 ≤ Scalar.floor d.value ∧ ¬ Scalar.ceil d.value ≤ x.getD d.var 0
  rw [h.getD_var]
  exact ⟨not_le.2 hfloor, not_le.2 hceil⟩

/-- **No point lies in both halves.** -/
theorem not_both (y : List K) : ¬ (d.down.Admits y ∧ d.up.Admits y) := by
  obtain ⟨hfloor, hceil⟩ := floor_lt_and_lt_ceil (h.not_isWhole htol)
  rw [h.down_eq, h.up_eq]
  rintro ⟨hdown, hup⟩
  have hle : Scalar.ceil d.value ≤ Scalar.floor d.value := hup.trans hdown
  linarith

end IsSplit

end Search.Branching

end BranchBound
