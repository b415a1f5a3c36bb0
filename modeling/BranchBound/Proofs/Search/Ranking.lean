import BranchBound.Proofs.Search.BestBound
import BranchBound.Proofs.Search.Stalls

/-!
# The best of several values

The frontier goes by the total order, everything else by `<`.  Where the two agree on values from a
linear order (`Scalar.RankedOn`), no entry is better than the one that the frontier serves next
(`Frontier.exists_best_of_pop?`), and of all values that a state offers, those of open nodes, of
stalled subtrees and of the incumbent, none is better than the bound (`State.bestBound?_spec`).
-/

namespace BranchBound

variable {K : Type} [Scalar K] {σ : Type}

/-- On the values in `S` the comparison `<` is that of a linear order, and the total order goes the
same way. -/
structure Scalar.RankedOn (S : Set K) : Prop extends Scalar.OrderedOn S where
  rank_of_lt : ∀ {a b : K}, a ∈ S → b ∈ S → a < b →
    Ranked.rank a b = .lt ∧ Ranked.rank b a = .gt

/-- Exact scalars have one order only. -/
theorem ExactScalar.rankedOn {L : Type} [ExactScalar L] (S : Set L) : Scalar.RankedOn S where
  toOrderedOn := ExactScalar.orderedOn S
  rank_of_lt {a b} _ _ hab := by
    rw [ExactScalar.rank_eq, ExactScalar.rank_eq]
    exact ⟨compare_lt_iff_lt.2 hab, compare_gt_iff_gt.2 hab⟩

/-- Double-precision numbers are ranked by their values as long as they are defined. -/
theorem Binary64.rankedOn {S : Set Binary64} (hS : ∀ v ∈ S, v.toFloat.isNaN = false) :
    Scalar.RankedOn S where
  toOrderedOn := Binary64.orderedOn hS
  rank_of_lt _ _ hab :=
    ⟨compare_lt_iff_lt.2 (position_lt hab), compare_gt_iff_gt.2 (position_lt hab)⟩

namespace Search

variable {S : Set K} (hS : Scalar.RankedOn S) (sense : Sense)

/-! ## The frontier -/

namespace Frontier

include hS

/-- A better value has priority. -/
theorem priority_of_improves {a b : K} (ha : a ∈ S) (hb : b ∈ S)
    (hab : sense.improves a b = true) : priority sense a b = .gt ∧ priority sense b a = .lt := by
  cases sense with
  | maximize => exact (hS.rank_of_lt hb ha (of_decide_eq_true hab)).symm
  | minimize => exact (hS.rank_of_lt ha hb (of_decide_eq_true hab)).symm

/-- What is taken before has no worse value. -/
theorem not_improves_of_precedes {a b : Entry K} (ha : a.value ∈ S) (hb : b.value ∈ S)
    (h : precedes sense a b = true) : sense.improves b.value a.value = false := by
  by_contra himproves
  rw [Bool.not_eq_false] at himproves
  rw [precedes, (priority_of_improves hS sense hb ha himproves).2] at h
  cases h

/-- What is not taken before has no better value. -/
theorem not_improves_of_not_precedes {a b : Entry K} (ha : a.value ∈ S) (hb : b.value ∈ S)
    (h : ¬ precedes sense a b = true) : sense.improves a.value b.value = false := by
  by_contra himproves
  rw [Bool.not_eq_false] at himproves
  rw [precedes, (priority_of_improves hS sense ha hb himproves).1] at h
  exact h rfl

/-- **No entry is better than the one that is split off.** -/
theorem extract_best {es others : List (Entry K)} {best : Entry K} (hes : ∀ e ∈ es, e.value ∈ S)
    (h : extract sense es = some (best, others)) :
    ∀ e ∈ es, sense.improves e.value best.value = false :=
  extract_leads (P := fun e => e.value ∈ S)
    (R := fun a b => sense.improves b.value a.value = false)
    (fun _ ha => hS.improves_self sense ha)
    (fun _ _ _ ha hb hc hab hbc => hS.not_improves_trans sense hc hb ha hbc hab)
    (fun _ _ ha hb => not_improves_of_precedes hS sense ha hb)
    (fun _ _ ha hb => not_improves_of_not_precedes hS sense ha hb) hes h

variable {f : Frontier K}

/-- **No entry is better than the one that is taken.** -/
theorem exists_best_of_pop? {rest : Frontier K} {id : ℕ} (hf : ∀ e ∈ f.entries, e.value ∈ S)
    (h : f.pop? = some (id, rest)) :
    ∃ e ∈ f.entries, e.id = id ∧ ∀ d ∈ f.entries, f.sense.improves d.value e.value = false := by
  simp only [pop?, Option.map_eq_some_iff, Prod.mk.injEq] at h
  obtain ⟨⟨best, others⟩, hextract, hid, -⟩ := h
  exact ⟨best, (extract_perm hextract).mem_iff.2 List.mem_cons_self, hid,
    extract_best hS f.sense hf hextract⟩

/-- **The frontier's bound is the value of an entry that no other is better than.** -/
theorem exists_best_of_bestBound? {v : K} (hf : ∀ e ∈ f.entries, e.value ∈ S)
    (h : f.bestBound? = some v) :
    ∃ e ∈ f.entries, e.value = v ∧ ∀ d ∈ f.entries, f.sense.improves d.value v = false := by
  simp only [bestBound?, Option.map_eq_some_iff] at h
  obtain ⟨⟨best, others⟩, hextract, rfl⟩ := h
  exact ⟨best, (extract_perm hextract).mem_iff.2 List.mem_cons_self, rfl,
    extract_best hS f.sense hf hextract⟩

end Frontier

/-! ## The bound -/

/-- The incumbent cannot be improved by a value exactly if its own is not worse. -/
theorem canImprove_eq_false_iff {i : Incumbent K} {v : K} :
    i.canImprove v = false ↔ ∃ w, i.value? = some w ∧ i.sense.improves v w = false := by
  unfold Incumbent.canImprove Incumbent.value?
  cases i.best <;> simp

/-- The incumbent can be improved by a value exactly if its own, if any, is worse. -/
theorem canImprove_eq_true_iff {i : Incumbent K} {v : K} :
    i.canImprove v = true ↔ ∀ w, i.value? = some w → i.sense.improves v w = true := by
  unfold Incumbent.canImprove Incumbent.value?
  cases i.best <;> simp

include hS in
/-- Neither of two values is better than the better one. -/
theorem betterOf_spec {a b : K} (ha : a ∈ S) (hb : b ∈ S) :
    State.betterOf sense a b ∈ S ∧ sense.improves a (State.betterOf sense a b) = false ∧
      sense.improves b (State.betterOf sense a b) = false := by
  unfold State.betterOf
  split
  · rename_i himproves
    exact ⟨hb, hS.improves_asymm sense hb ha himproves, hS.improves_self sense hb⟩
  · rename_i himproves
    exact ⟨ha, hS.improves_self sense ha, Bool.eq_false_iff.2 himproves⟩

include hS in
/-- **Of several values none is better than the best.** -/
theorem not_improves_foldl_betterOf (a : K) (bs : List K) (hmem : ∀ v ∈ a :: bs, v ∈ S) :
    ∀ v ∈ a :: bs, sense.improves v (bs.foldl (State.betterOf sense) a) = false := by
  induction bs generalizing a with
  | nil =>
      intro v hv
      obtain rfl := List.mem_singleton.1 hv
      exact hS.improves_self sense (hmem v hv)
  | cons b bs ih =>
      have ha := hmem a List.mem_cons_self
      have hb := hmem b (List.mem_cons_of_mem _ List.mem_cons_self)
      -- the winner of the first two goes on against the others
      obtain ⟨hc, hac, hbc⟩ := betterOf_spec hS sense ha hb
      have hrest : ∀ v ∈ State.betterOf sense a b :: bs, v ∈ S := by
        intro v hv
        rcases List.mem_cons.1 hv with rfl | hv
        · exact hc
        · exact hmem v (List.mem_cons_of_mem _ (List.mem_cons_of_mem _ hv))
      have hbest := ih _ hrest
      have hwinner := hrest _ (State.foldl_betterOf_mem sense _ bs)
      have hfirst := hbest _ List.mem_cons_self
      intro v hv
      rw [List.foldl_cons]
      rcases List.mem_cons.1 hv with rfl | hv
      · exact hS.not_improves_trans sense ha hc hwinner hac hfirst
      · rcases List.mem_cons.1 hv with rfl | hv
        · exact hS.not_improves_trans sense hb hc hwinner hbc hfirst
        · exact hbest v (List.mem_cons_of_mem _ hv)

/-- A value that the state offers: of an open node, of the stalled subtrees or of the incumbent. -/
inductive Offers (s : State K σ) (v : K) : Prop where
  /-- An open node waits with the value. -/
  | opened {e : Entry K} (he : e ∈ s.frontier.entries) (hv : e.value = v) : Offers s v
  /-- The value is that of the stalled subtrees. -/
  | stalled (hv : s.stalledBound = some v) : Offers s v
  /-- The value is that of the incumbent. -/
  | incumbent (hv : s.incumbent.value? = some v) : Offers s v

variable {s : State K σ}

/-- Where a value is offered there is a bound. -/
theorem Offers.exists_bestBound? {v : K} (h : Offers s v) : ∃ w, s.bestBound? sense = some w := by
  unfold State.bestBound?
  cases hcounts : (s.frontier.bestBound?.toList ++ s.stalledBound.toList).filter
      s.incumbent.canImprove with
  | cons a bs => exact ⟨_, rfl⟩
  | nil =>
    rw [List.filter_eq_nil_iff] at hcounts
    cases hbest : s.incumbent.value? with
    | some w => exact ⟨w, rfl⟩
    | none =>
        -- without an incumbent every value counts
        have himproves : ∀ w, s.incumbent.canImprove w = true := fun w =>
          canImprove_eq_true_iff.2 (by simp [hbest])
        exfalso
        cases h with
        | opened he _ =>
            obtain ⟨u, hu⟩ := Option.ne_none_iff_exists'.1 fun hnone =>
              List.ne_nil_of_mem he (Frontier.bestBound?_eq_none_iff.1 hnone)
            exact hcounts u (by simp [hu]) (himproves u)
        | stalled hv => exact hcounts v (by simp [hv]) (himproves v)
        | incumbent hv => simp [hbest] at hv

/-- The bounds of the frontier and of the stalled subtrees, as far as there are any. -/
def State.openBounds (s : State K σ) : List K :=
  s.frontier.bestBound?.toList ++ s.stalledBound.toList

/-- The bound is the incumbent's value if no open bound can improve on it, and otherwise the best of
those that can. -/
theorem State.bestBound?_cases {bound : K} (h : s.bestBound? sense = some bound) :
    (s.incumbent.value? = some bound ∧
      ∀ c ∈ s.openBounds, s.incumbent.canImprove c = false) ∨
    ∃ a bs, bs.foldl (betterOf sense) a = bound ∧
      ∀ c, c ∈ a :: bs ↔ c ∈ s.openBounds ∧ s.incumbent.canImprove c = true := by
  unfold State.bestBound? at h
  cases hcounts : (s.frontier.bestBound?.toList ++ s.stalledBound.toList).filter
      s.incumbent.canImprove with
  | nil =>
      rw [hcounts] at h
      rw [List.filter_eq_nil_iff] at hcounts
      exact .inl ⟨h, fun c hc => Bool.eq_false_iff.2 (hcounts c hc)⟩
  | cons a bs =>
      rw [hcounts] at h
      refine .inr ⟨a, bs, Option.some.inj h, fun c => ?_⟩
      rw [← hcounts]
      exact List.mem_filter

section Offers

variable (hoffers : ∀ v, Offers s v → v ∈ S)
include hS hoffers

/-- Open bounds are offered. -/
theorem Offers.of_mem_openBounds {c : K} (hc : c ∈ s.openBounds) : Offers s c := by
  have hentries : ∀ e ∈ s.frontier.entries, e.value ∈ S := fun e he => hoffers _ (.opened he rfl)
  rcases List.mem_append.1 hc with hc | hc
  · obtain ⟨e, he, hv, -⟩ :=
      Frontier.exists_best_of_bestBound? hS hentries (Option.mem_toList.1 hc)
    exact .opened he hv
  · exact .stalled (Option.mem_toList.1 hc)

/-- What is offered is the incumbent's value or not better than one of the open bounds. -/
theorem Offers.incumbent_or_openBounds (hfrontier : s.frontier.sense = sense) {v : K}
    (h : Offers s v) : s.incumbent.value? = some v ∨
      ∃ c ∈ s.openBounds, sense.improves v c = false := by
  have hentries : ∀ e ∈ s.frontier.entries, e.value ∈ S := fun e he => hoffers _ (.opened he rfl)
  have hv := hoffers v h
  cases h with
  | opened he heq =>
      obtain ⟨u, hu⟩ := Option.ne_none_iff_exists'.1 fun hnone =>
        List.ne_nil_of_mem he (Frontier.bestBound?_eq_none_iff.1 hnone)
      obtain ⟨-, -, -, hbest⟩ := Frontier.exists_best_of_bestBound? hS hentries hu
      rw [hfrontier] at hbest
      exact .inr ⟨u, by simp [State.openBounds, hu], heq ▸ hbest _ he⟩
  | stalled heq => exact .inr ⟨v, by simp [State.openBounds, heq], hS.improves_self sense hv⟩
  | incumbent heq => exact .inl heq

/-- The bound is offered, and neither the incumbent nor an open bound that can improve on it is
better. -/
theorem State.bestBound?_best (hincumbent : s.incumbent.sense = sense) {bound : K}
    (h : s.bestBound? sense = some bound) :
    Offers s bound ∧ (∀ i, s.incumbent.value? = some i → sense.improves i bound = false) ∧
      ∀ c ∈ s.openBounds, s.incumbent.canImprove c = true →
        sense.improves c bound = false := by
  obtain ⟨hvalue, hnone⟩ | ⟨a, bs, rfl, hcount⟩ := State.bestBound?_cases sense h
  · refine ⟨.incumbent hvalue, fun i hi => ?_, fun c hc himproves => ?_⟩
    · obtain rfl := Option.some.inj (hvalue.symm.trans hi)
      exact hS.improves_self sense (hoffers bound (.incumbent hvalue))
    · rw [hnone c hc] at himproves
      cases himproves
  · obtain ⟨hopen, himproves⟩ := (hcount _).1 (State.foldl_betterOf_mem sense a bs)
    have hbound := Offers.of_mem_openBounds hS hoffers hopen
    have hmem : ∀ c ∈ a :: bs, c ∈ S := fun c hc =>
      hoffers c (Offers.of_mem_openBounds hS hoffers ((hcount c).1 hc).1)
    refine ⟨hbound, fun i hi => ?_, fun c hc hc' =>
      not_improves_foldl_betterOf hS sense a bs hmem c ((hcount c).2 ⟨hc, hc'⟩)⟩
    have himproves := canImprove_eq_true_iff.1 himproves i hi
    rw [hincumbent] at himproves
    exact hS.improves_asymm sense (hoffers _ hbound) (hoffers i (.incumbent hi)) himproves

end Offers

/-- **The bound is a value that the state offers, and none that it offers is better.** -/
theorem State.bestBound?_spec (hfrontier : s.frontier.sense = sense)
    (hincumbent : s.incumbent.sense = sense) (hoffers : ∀ v, Offers s v → v ∈ S)
    (hS : Scalar.RankedOn S) {bound : K} (h : s.bestBound? sense = some bound) :
    Offers s bound ∧ ∀ v, Offers s v → sense.improves v bound = false := by
  obtain ⟨hbound, hinc, hcand⟩ := State.bestBound?_best hS sense hoffers hincumbent h
  refine ⟨hbound, fun v hv => ?_⟩
  obtain hi | ⟨c, hc, hvc⟩ := hv.incumbent_or_openBounds hS sense hoffers hfrontier
  · exact hinc v hi
  have hcS := hoffers c (Offers.of_mem_openBounds hS hoffers hc)
  refine hS.not_improves_trans sense (hoffers v hv) hcS (hoffers bound hbound) hvc ?_
  by_cases himproves : s.incumbent.canImprove c = true
  · exact hcand c hc himproves
  · -- an open bound that does not count is not better than the incumbent
    obtain ⟨i, hi, hci⟩ := canImprove_eq_false_iff.1 (Bool.eq_false_iff.2 himproves)
    rw [hincumbent] at hci
    exact hS.not_improves_trans sense hcS (hoffers i (.incumbent hi)) (hoffers bound hbound) hci
      (hinc i hi)

end Search

end BranchBound
