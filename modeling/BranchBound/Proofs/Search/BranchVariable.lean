import BranchBound.Proofs.Search.Splitting

/-!
# The variable to branch on

Each rule of branching gives the eligible variables a score (`BranchingRule.score`), and the
variable that is selected is the lowest of those with the largest score
(`Branching.select_eq_some_iff`).

Two of the scores are made of the distance to the nearest whole number.  It is indeed the least of
the distances to all whole numbers (`isLeast_fractionality`), and it is large where the fractional
part is close to one half (`fractionality_eq`).  The split at the selected variable leaves out the
unit around its value (`ceil_eq_floor_add_one`).
-/

namespace BranchBound

variable {K : Type} [ExactScalar K]

/-! ## The distance to the nearest whole number -/

theorem abs_eq_abs (v : K) : Scalar.abs v = |v| := ExactScalar.abs_eq v

/-- The distance that is measured is the one to the rounded value. -/
theorem fractionality_eq_abs (v : K) : Scalar.fractionality v = |v - Scalar.round v| :=
  abs_eq_abs _

/-- The rounded value is a whole number at most one half away. -/
theorem exists_round_eq (v : K) : ∃ z : ℤ, Scalar.round v = z ∧ |v - z| ≤ 1 / 2 := by
  rw [ExactScalar.round_eq]
  split
  · obtain ⟨z, hz, hle, hlt⟩ := ExactScalar.floor_spec (-v + 1 / 2)
    refine ⟨-z, by rw [hz]; push_cast; ring, abs_le.2 ⟨?_, ?_⟩⟩ <;> push_cast <;> linarith
  · obtain ⟨z, hz, hle, hlt⟩ := ExactScalar.floor_spec (v + 1 / 2)
    exact ⟨z, hz, abs_le.2 ⟨by linarith, by linarith⟩⟩

/-- **No whole number is nearer than the rounded value.** -/
theorem isLeast_fractionality (v : K) :
    IsLeast (Set.range fun z : ℤ => |v - z|) (Scalar.fractionality v) := by
  obtain ⟨z, hz, hhalf⟩ := exists_round_eq v
  rw [fractionality_eq_abs, hz]
  refine ⟨⟨z, rfl⟩, ?_⟩
  rintro _ ⟨w, rfl⟩
  by_cases hw : w = z
  · rw [hw]
  · -- another whole number is at least one away from the rounded value
    have hone : (1 : K) ≤ |(z : K) - w| := by
      exact_mod_cast Int.one_le_abs (sub_ne_zero.2 (Ne.symm hw))
    have htriangle : |(z : K) - w| ≤ |v - z| + |v - w| := by
      rw [abs_sub_comm v]
      exact abs_sub_le _ _ _
    show |v - z| ≤ |v - w|
    linarith

/-- **The distance is one half less the distance of the fractional part from one half.** -/
theorem fractionality_eq (v : K) :
    Scalar.fractionality v = 1 / 2 - |v - Scalar.floor v - 1 / 2| := by
  obtain ⟨f, hf, hle, hlt⟩ := ExactScalar.floor_spec v
  obtain ⟨⟨z, hz⟩, hleast⟩ := isLeast_fractionality v
  have hbelow : Scalar.fractionality v ≤ |v - f| := hleast ⟨f, rfl⟩
  have habove : Scalar.fractionality v ≤ |v - (f + 1 : ℤ)| := hleast ⟨f + 1, rfl⟩
  push_cast at habove
  rw [abs_of_nonneg (by linarith)] at hbelow
  rw [abs_of_neg (by linarith)] at habove
  rw [hf]
  refine le_antisymm (le_sub_comm.1 (abs_le.2 ⟨by linarith, by linarith⟩)) ?_
  rw [← hz]
  -- the nearest whole number is at or below the floor, or above it
  rcases le_or_gt z f with hzf | hzf
  · have hzf : (z : K) ≤ f := by exact_mod_cast hzf
    have := neg_abs_le (v - f - 1 / 2)
    have := le_abs_self (v - z)
    linarith
  · have hzf : (f : K) + 1 ≤ z := by exact_mod_cast hzf
    have := le_abs_self (v - f - 1 / 2)
    have := neg_abs_le (v - z)
    linarith

/-- The ceiling of a value that is not whole is one above its floor. -/
theorem ceil_eq_floor_add_one {v : K} (h : ¬ IsWhole v) : Scalar.ceil v = Scalar.floor v + 1 := by
  obtain ⟨hfloor, hceil⟩ := floor_lt_and_lt_ceil h
  obtain ⟨f, hf, -, hlt⟩ := ExactScalar.floor_spec v
  obtain ⟨c, hc, -, hlt'⟩ := ExactScalar.ceil_spec v
  rw [hf] at hfloor ⊢
  rw [hc] at hceil ⊢
  have hfc : (f : K) < c := hfloor.trans hceil
  have hcf : (c : K) < ((f + 2 : ℤ) : K) := by push_cast; linarith
  have hfc : f < c := by exact_mod_cast hfc
  have hcf : c < f + 2 := by exact_mod_cast hcf
  obtain rfl : c = f + 1 := by omega
  push_cast
  rfl

/-! ## Scores -/

/-- What a rule thinks of branching on a variable with the value `v`. -/
def BranchingRule.score (rule : BranchingRule) (objective : List K) (i : ℕ) (v : K) : K :=
  match rule with
  | .firstFractional => 1
  | .mostFractional => Scalar.fractionality v
  | .maxCoefficient => |objective.getD i 0| * Scalar.fractionality v

namespace Search.Branching

/-- The variable has the value `v`, and this is farther than the tolerance from every whole
number. -/
def IsEligible (tol : K) (x : List K) (i : ℕ) (v : K) : Prop :=
  x[i]? = some v ∧ tol < Scalar.fractionality v

/-- The variable is eligible, no eligible one has a larger score, and no lower one as large a
score. -/
structure Wins (score : ℕ → K → K) (tol : K) (x : List K) (i : ℕ) (v : K) : Prop where
  eligible : IsEligible tol x i v
  largest : ∀ j w, IsEligible tol x j w → score j w ≤ score i v
  first : ∀ j w, IsEligible tol x j w → j < i → score j w < score i v

namespace Wins

variable {score score' : ℕ → K → K} {tol : K} {x : List K} {i j : ℕ} {v w : K}

/-- There is one winner at most. -/
theorem unique (h : Wins score tol x i v) (h' : Wins score tol x j w) : i = j := by
  rcases lt_trichotomy i j with hlt | heq | hgt
  · exact absurd (h'.first i v h.eligible hlt) (not_lt.2 (h.largest j w h'.eligible))
  · exact heq
  · exact absurd (h.first j w h'.eligible hgt) (not_lt.2 (h'.largest i v h.eligible))

/-- Who wins depends on the order of the scores alone. -/
theorem of_score_le_iff (h : Wins score tol x i v)
    (hscore : ∀ i v j w, score' i v ≤ score' j w ↔ score i v ≤ score j w) :
    Wins score' tol x i v where
  eligible := h.eligible
  largest j w hw := (hscore ..).2 (h.largest j w hw)
  first j w hw hlt := not_le.1 fun hle => not_le.2 (h.first j w hw hlt) ((hscore ..).1 hle)

end Wins

/-! ## The first of the largest scores -/

/-- A candidate with the largest score, larger than those of all lower variables. -/
structure Leads (scores : List (ℕ × K)) (c : ℕ × K) : Prop where
  mem : c ∈ scores
  largest : ∀ d ∈ scores, d.2 ≤ c.2
  first : ∀ d ∈ scores, d.1 < c.1 → d.2 < c.2

/-- The candidates come in the order of their variables. -/
def Ascending (scores : List (ℕ × K)) : Prop := scores.Pairwise fun c d => c.1 < d.1

/-- **Going through ascending candidates keeps the one that leads.** -/
theorem foldl_better_leads {b : ℕ × K} {scores : List (ℕ × K)} (h : Ascending (b :: scores)) :
    ∃ c, scores.foldl better (some b) = some c ∧ Leads (b :: scores) c := by
  induction scores generalizing b with
  | nil => exact ⟨b, rfl, by simp, by simp, by simp⟩
  | cons d rest ih =>
      obtain ⟨hb, hd⟩ := List.pairwise_cons.1 h
      have hbd : b.1 < d.1 := hb d List.mem_cons_self
      rw [List.foldl_cons]
      by_cases hle : d.2 ≤ b.2
      · -- the new candidate is passed over
        rw [show better (some b) d = some b from if_pos hle]
        obtain ⟨c, hok, hmem, hlargest, hfirst⟩ := ih (b := b)
          (List.pairwise_cons.2 ⟨fun e he => hb e (List.mem_cons_of_mem _ he),
            (List.pairwise_cons.1 hd).2⟩)
        have hbc := hlargest b List.mem_cons_self
        refine ⟨c, hok, ?_, ?_, ?_⟩
        · rcases List.mem_cons.1 hmem with rfl | hmem
          · exact List.mem_cons_self
          · exact List.mem_cons_of_mem _ (List.mem_cons_of_mem _ hmem)
        · simp only [List.forall_mem_cons] at hlargest ⊢
          exact ⟨hbc, hle.trans hbc, hlargest.2⟩
        · simp only [List.forall_mem_cons] at hfirst ⊢
          exact ⟨hfirst.1, fun hlt => hle.trans_lt (hfirst.1 (hbd.trans hlt)), hfirst.2⟩
      · -- the new candidate has a larger score than all before
        rw [show better (some b) d = some d from if_neg hle]
        obtain ⟨c, hok, hmem, hlargest, hfirst⟩ := ih hd
        have hbc : b.2 < c.2 := (not_le.1 hle).trans_le (hlargest d List.mem_cons_self)
        exact ⟨c, hok, List.mem_cons_of_mem _ hmem, List.forall_mem_cons.2 ⟨hbc.le, hlargest⟩,
          List.forall_mem_cons.2 ⟨fun _ => hbc, hfirst⟩⟩

/-- The best of ascending candidates leads them. -/
theorem exists_bestScore_leads {scores : List (ℕ × K)} (h : Ascending scores) (hne : scores ≠ []) :
    ∃ c, bestScore scores = some c.1 ∧ Leads scores c := by
  obtain ⟨b, rest, rfl⟩ := List.exists_cons_of_ne_nil hne
  obtain ⟨c, hok, hleads⟩ := foldl_better_leads h
  refine ⟨c, ?_, hleads⟩
  show ((rest.foldl better (some b)).map Prod.fst) = some c.1
  rw [hok, Option.map_some]

/-! ## The candidates -/

/-- Candidates are the eligible variables with their distances. -/
theorem mem_eligible_iff {tol : K} {index : ℕ} {x : List K} {c : ℕ × K} :
    c ∈ eligible tol index x ↔
      ∃ k v, IsEligible tol x k v ∧ c = (index + k, Scalar.fractionality v) := by
  constructor
  · intro h
    induction x generalizing index with
    | nil => simp [eligible] at h
    | cons v rest ih =>
        have hrest : c ∈ eligible tol (index + 1) rest → ∃ k w, IsEligible tol (v :: rest) k w ∧
            c = (index + k, Scalar.fractionality w) := by
          intro hc
          obtain ⟨k, w, ⟨hk, hw⟩, rfl⟩ := ih hc
          exact ⟨k + 1, w, ⟨hk, hw⟩, by rw [Nat.add_right_comm, Nat.add_assoc]⟩
        rw [eligible] at h
        split at h
        · rename_i hv
          rcases List.mem_cons.1 h with rfl | hc
          · exact ⟨0, v, ⟨rfl, hv⟩, rfl⟩
          · exact hrest hc
        · exact hrest h
  · rintro ⟨k, v, ⟨hk, hv⟩, rfl⟩
    induction x generalizing index k with
    | nil => simp at hk
    | cons u rest ih =>
        rw [eligible]
        cases k with
        | zero =>
            obtain rfl : u = v := Option.some.inj hk
            simp only [if_pos hv, Nat.add_zero]
            exact List.mem_cons_self
        | succ k =>
            have hmem : (index + 1 + k, Scalar.fractionality v) ∈ eligible tol (index + 1) rest :=
              ih k hk
            rw [Nat.add_right_comm, Nat.add_assoc] at hmem
            split
            · exact List.mem_cons_of_mem _ hmem
            · exact hmem

/-- The eligible variables come in order. -/
theorem ascending_eligible (tol : K) (index : ℕ) (x : List K) :
    Ascending (eligible tol index x) := by
  induction x generalizing index with
  | nil => exact List.Pairwise.nil
  | cons v rest ih =>
      rw [eligible]
      split
      · refine List.pairwise_cons.2 ⟨fun c hc => ?_, ih _⟩
        obtain ⟨k, w, -, rfl⟩ := mem_eligible_iff.1 hc
        simp only
        omega
      · exact ih _

/-- Weighing the candidates leaves their order alone. -/
theorem ascending_map_weigh {candidates : List (ℕ × K)} (h : Ascending candidates)
    (objective : List K) : Ascending (candidates.map (weigh objective)) :=
  List.pairwise_map.2 h

/-- The weighed candidates are the eligible variables with their weighed distances. -/
theorem mem_map_weigh_iff {tol : K} {x objective : List K} {c : ℕ × K} :
    c ∈ (eligible tol 0 x).map (weigh objective) ↔ ∃ i v, IsEligible tol x i v ∧
      c = (i, BranchingRule.maxCoefficient.score objective i v) := by
  simp only [List.mem_map, mem_eligible_iff, Nat.zero_add]
  constructor
  · rintro ⟨_, ⟨i, v, hv, rfl⟩, rfl⟩
    refine ⟨i, v, hv, ?_⟩
    rw [weigh, abs_eq_abs, ← List.getD_eq_getElem?_getD]
    rfl
  · rintro ⟨i, v, hv, rfl⟩
    refine ⟨_, ⟨i, v, hv, rfl⟩, ?_⟩
    rw [weigh, abs_eq_abs, ← List.getD_eq_getElem?_getD]
    rfl

/-- What leads the candidates with their scores wins. -/
theorem Leads.wins {score : ℕ → K → K} {tol : K} {x : List K} {scores : List (ℕ × K)} {c : ℕ × K}
    (h : Leads scores c)
    (hscores : ∀ d, d ∈ scores ↔ ∃ i v, IsEligible tol x i v ∧ d = (i, score i v)) :
    ∃ v, Wins score tol x c.1 v := by
  obtain ⟨i, v, hv, rfl⟩ := (hscores c).1 h.mem
  refine ⟨v, hv, fun j w hw => ?_, fun j w hw hlt => ?_⟩
  · exact h.largest _ ((hscores (j, score j w)).2 ⟨j, w, hw, rfl⟩)
  · exact h.first _ ((hscores (j, score j w)).2 ⟨j, w, hw, rfl⟩) hlt

/-! ## The selection -/

variable (rule : BranchingRule) (objective : List K) (tol : K) (x : List K)

/-- **If a variable is eligible, the one that is selected wins.** -/
theorem exists_select_wins (hne : eligible tol 0 x ≠ []) :
    ∃ i v, select rule objective tol x = some i ∧ Wins (rule.score objective) tol x i v := by
  have hascending := ascending_eligible tol 0 x
  have hmem : ∀ d, d ∈ eligible tol 0 x ↔ ∃ i v, IsEligible tol x i v ∧
      d = (i, Scalar.fractionality v) := by
    simp [mem_eligible_iff]
  cases rule with
  | firstFractional =>
      obtain ⟨c, rest, hcons⟩ := List.exists_cons_of_ne_nil hne
      rw [hcons] at hascending
      obtain ⟨i, v, hv, rfl⟩ := (hmem c).1 (hcons ▸ List.mem_cons_self)
      refine ⟨i, v, by simp only [select, hcons]; rfl, hv, fun _ _ _ => le_rfl, ?_⟩
      -- all scores are equal, and no eligible variable is lower than the first one
      intro j w hw hlt
      have hj := (hmem _).2 ⟨j, w, hw, rfl⟩
      rw [hcons] at hj
      rcases List.mem_cons.1 hj with heq | hj
      · exact absurd (congrArg Prod.fst heq) hlt.ne
      · exact absurd ((List.pairwise_cons.1 hascending).1 _ hj) (not_lt.2 hlt.le)
  | mostFractional =>
      obtain ⟨c, hselect, hleads⟩ := exists_bestScore_leads hascending hne
      obtain ⟨v, hwins⟩ := hleads.wins hmem
      exact ⟨c.1, v, hselect, hwins⟩
  | maxCoefficient =>
      obtain ⟨c, hselect, hleads⟩ := exists_bestScore_leads
        (ascending_map_weigh hascending objective) (by simpa using hne)
      obtain ⟨v, hwins⟩ := hleads.wins fun d => mem_map_weigh_iff
      exact ⟨c.1, v, hselect, hwins⟩

/-- No variable is selected exactly if the point is integral. -/
theorem select_eq_none_iff :
    select rule objective tol x = none ↔ IntegerProgram.isIntegral x tol = true := by
  have hempty : eligible tol 0 x = [] ↔ IntegerProgram.isIntegral x tol = true :=
    eligible_eq_nil_iff
  rw [← hempty]
  obtain ⟨hnone, hnil⟩ | ⟨c, hc, hsome⟩ := select_spec rule objective tol x
  · exact iff_of_true hnone hnil
  · exact iff_of_false (by simp [hsome]) (List.ne_nil_of_mem hc)

/-- **The selected variable is the winner.** -/
theorem select_eq_some_iff (i : ℕ) :
    select rule objective tol x = some i ↔ ∃ v, Wins (rule.score objective) tol x i v := by
  constructor
  · intro h
    have hne : eligible tol 0 x ≠ [] := by
      intro hnil
      rw [(select_eq_none_iff rule objective tol x).2 (eligible_eq_nil_iff.1 hnil)] at h
      cases h
    obtain ⟨j, v, hselect, hwins⟩ := exists_select_wins rule objective tol x hne
    obtain rfl : j = i := Option.some.inj (hselect.symm.trans h)
    exact ⟨v, hwins⟩
  · rintro ⟨v, hwins⟩
    have hmem : (0 + i, Scalar.fractionality v) ∈ eligible tol 0 x :=
      mem_eligible_iff.2 ⟨i, v, hwins.eligible, rfl⟩
    obtain ⟨j, w, hselect, hwins'⟩ :=
      exists_select_wins rule objective tol x (List.ne_nil_of_mem hmem)
    rwa [hwins'.unique hwins] at hselect

/-- Large distances to whole numbers belong to fractional parts close to one half. -/
theorem wins_mostFractional_iff (i : ℕ) (v : K) :
    Wins (BranchingRule.mostFractional.score objective) tol x i v ↔
      Wins (fun _ w => -|w - Scalar.floor w - 1 / 2|) tol x i v := by
  have hscore : ∀ (i : ℕ) (v : K) (j : ℕ) (w : K),
      BranchingRule.mostFractional.score objective i v ≤
          BranchingRule.mostFractional.score objective j w ↔
        -|v - Scalar.floor v - 1 / 2| ≤ -|w - Scalar.floor w - 1 / 2| := by
    intro i v j w
    simp only [BranchingRule.score, fractionality_eq, sub_eq_add_neg, add_le_add_iff_left]
  exact ⟨fun h => h.of_score_le_iff fun i v j w => (hscore i v j w).symm,
    fun h => h.of_score_le_iff hscore⟩

/-- The split at the selected variable. -/
theorem split?_of_select {i : ℕ} (h : select rule objective tol x = some i) :
    ∃ v, x[i]? = some v ∧
      split? rule objective tol x = some ⟨i, v, Bound.down i v, Bound.up i v⟩ := by
  obtain ⟨v, hwins⟩ := (select_eq_some_iff rule objective tol x i).1 h
  refine ⟨v, hwins.eligible.1, ?_⟩
  rw [split?, h]
  show (x[i]? >>= _) = _
  rw [hwins.eligible.1]
  rfl

/-- **Branching is on the lowest variable with the largest score.**  No variable is selected, and
the point is not split, exactly if it is integral within the tolerance.  Else the lowest of those
variables is selected whose score is largest among the variables farther than the tolerance from
their rounded values; the scores are made of the distance to the nearest whole number, and for one
rule the variable whose fractional part is closest to one half is the same.  With a tolerance that
is not negative the value of the variable lies strictly between the two bounds of the split, which
are one apart. -/
theorem select_lowest_best :
    (select rule objective tol x = none ↔ IntegerProgram.isIntegral x tol = true) ∧
    (split? rule objective tol x = none ↔ IntegerProgram.isIntegral x tol = true) ∧
    (∀ i, select rule objective tol x = some i ↔ ∃ v, Wins (rule.score objective) tol x i v) ∧
    (∀ i, select .mostFractional objective tol x = some i ↔
      ∃ v, Wins (fun _ w => -|w - Scalar.floor w - 1 / 2|) tol x i v) ∧
    (∀ v : K, Scalar.fractionality v = |v - Scalar.round v| ∧
      IsLeast (Set.range fun z : ℤ => |v - z|) (Scalar.fractionality v)) ∧
    ∀ i, select rule objective tol x = some i → ∃ d, split? rule objective tol x = some d ∧
      d.var = i ∧ x[i]? = some d.value ∧
      (d.down.var = i ∧ d.down.direction = .upper) ∧ (d.up.var = i ∧ d.up.direction = .lower) ∧
      (0 ≤ tol → d.down.value < d.value ∧ d.value < d.up.value ∧
        d.up.value = d.down.value + 1) := by
  refine ⟨select_eq_none_iff rule objective tol x, split?_eq_none_iff rule objective tol x,
    select_eq_some_iff rule objective tol x, fun i => ?_,
    fun v => ⟨fractionality_eq_abs v, isLeast_fractionality v⟩, fun i h => ?_⟩
  · rw [select_eq_some_iff]
    exact exists_congr fun v => wins_mostFractional_iff objective tol x i v
  · obtain ⟨v, hv, hsplit⟩ := split?_of_select rule objective tol x h
    refine ⟨_, hsplit, rfl, hv, ⟨rfl, rfl⟩, ⟨rfl, rfl⟩, fun htol => ?_⟩
    have hwhole := (isSplit_of_split? hsplit).not_isWhole htol
    obtain ⟨hfloor, hceil⟩ := floor_lt_and_lt_ceil hwhole
    exact ⟨hfloor, hceil, ceil_eq_floor_add_one hwhole⟩

/-- Of four values one is whole and one is just within a tolerance of one eighth.  The others, with
the coefficients -3 and none, score three quarters and nothing: the split is at 9/4, between two and
three. -/
theorem weighed_select_lowest_best :
    (0 : ℚ) ≤ 1 / 8 ∧
    select .maxCoefficient [8, 5, -3] (1 / 8 : ℚ) [3, 7 / 8, 9 / 4, 1 / 2] = some 2 ∧
    Wins (BranchingRule.maxCoefficient.score [8, 5, -3]) (1 / 8 : ℚ) [3, 7 / 8, 9 / 4, 1 / 2] 2
      (9 / 4) ∧
    ∃ d, split? .maxCoefficient [8, 5, -3] (1 / 8 : ℚ) [3, 7 / 8, 9 / 4, 1 / 2] = some d ∧
      d.value = 9 / 4 ∧ d.down.value < 9 / 4 ∧ 9 / 4 < d.up.value ∧
      d.up.value = d.down.value + 1 := by
  have htol : (0 : ℚ) ≤ 1 / 8 := by norm_num
  have heval :
      select .maxCoefficient [8, 5, -3] (1 / 8 : ℚ) [3, 7 / 8, 9 / 4, 1 / 2] = some 2 := by
    decide +kernel
  obtain ⟨-, -, hselect, -, -, hsplit⟩ :=
    select_lowest_best .maxCoefficient [8, 5, -3] (1 / 8 : ℚ) [3, 7 / 8, 9 / 4, 1 / 2]
  obtain ⟨v, hwins⟩ := (hselect 2).1 heval
  obtain rfl : (9 / 4 : ℚ) = v := Option.some.inj hwins.eligible.1
  obtain ⟨d, hd, -, hvalue, -, -, hunit⟩ := hsplit 2 heval
  have hvalue : (9 / 4 : ℚ) = d.value := Option.some.inj hvalue
  obtain ⟨hdown, hup, hone⟩ := hunit htol
  rw [← hvalue] at hdown hup
  exact ⟨htol, heval, hwins, d, hd, hvalue.symm, hdown, hup, hone⟩

end Search.Branching

end BranchBound
