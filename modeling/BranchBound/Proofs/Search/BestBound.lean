import BranchBound.Proofs.ExactScalar
import BranchBound.Search.State

/-!
# The best value still open

Of all open nodes the frontier serves one whose value nothing else in it beats
(`Frontier.reaches_bestBound?`).  The bound of a search state passes over open and stalled values
that cannot improve on the incumbent, and what it passes over the incumbent reaches: whatever one
of the three reaches, the bound reaches (`State.reaches_bestBound?`).
-/

namespace BranchBound

variable {K : Type} [ExactScalar K]

/-- There is a value, and it is at least as good as another. -/
def Sense.Reaches (s : Sense) (o : Option K) (c : K) : Prop := ∃ v, o = some v ∧ s.cost v ≤ s.cost c

namespace Sense

variable {s : Sense}

theorem reaches_some {v c : K} : s.Reaches (some v) c ↔ s.cost v ≤ s.cost c := by
  simp [Reaches]

/-- Nothing reaches anything without a value. -/
theorem not_reaches_none (c : K) : ¬ s.Reaches none c := by
  simp [Reaches]

/-- A value that is reached is not better. -/
theorem Reaches.not_improves {o : Option K} {v c : K} (h : s.Reaches o c) (ho : o = some v) :
    s.improves c v = false := by
  obtain ⟨w, hw, hle⟩ := h
  obtain rfl := Option.some.inj (ho.symm.trans hw)
  exact (s.improves_eq_false_iff _ _).2 hle

end Sense

namespace Search

/-! ## The frontier -/

namespace Frontier

/-- Cheaper values have priority. -/
theorem priority_eq (s : Sense) (a b : K) : priority s a b = compare (s.cost b) (s.cost a) := by
  cases s with
  | maximize =>
      show Ranked.rank a b = compare (-b) (-a)
      rw [ExactScalar.rank_eq]
      rcases lt_trichotomy a b with h | rfl | h
      · rw [compare_lt_iff_lt.2 h, compare_lt_iff_lt.2 (neg_lt_neg h)]
      · rw [compare_eq_iff_eq.2 rfl, compare_eq_iff_eq.2 rfl]
      · rw [compare_gt_iff_gt.2 h, compare_gt_iff_gt.2 (neg_lt_neg h)]
  | minimize => exact ExactScalar.rank_eq b a

/-- What is taken before is at least as good. -/
theorem cost_le_of_precedes {s : Sense} {a b : Entry K} (h : precedes s a b = true) :
    s.cost a.value ≤ s.cost b.value := by
  by_contra hgt
  rw [precedes, priority_eq, compare_lt_iff_lt.2 (not_le.1 hgt)] at h
  cases h

/-- What is not taken before is at most as good. -/
theorem cost_le_of_not_precedes {s : Sense} {a b : Entry K} (h : ¬ precedes s a b = true) :
    s.cost b.value ≤ s.cost a.value := by
  by_contra hlt
  refine h ?_
  rw [precedes, priority_eq, compare_gt_iff_gt.2 (not_le.1 hlt)]

/-- **Nothing in the frontier beats the entry that is taken first.** -/
theorem cost_extract_le {s : Sense} {es others : List (Entry K)} {best : Entry K}
    (h : extract s es = some (best, others)) : ∀ e ∈ es, s.cost best.value ≤ s.cost e.value :=
  extract_leads (P := fun _ => True) (R := fun a b => s.cost a.value ≤ s.cost b.value)
    (fun _ _ => le_rfl) (fun _ _ _ _ _ _ hab hbc => hab.trans hbc)
    (fun _ _ _ _ => cost_le_of_precedes) (fun _ _ _ _ => cost_le_of_not_precedes)
    (fun _ _ => trivial) h

/-- **The frontier's bound reaches what one of its entries reaches.** -/
theorem reaches_bestBound? {f : Frontier K} {e : Entry K} (he : e ∈ f.entries) {c : K}
    (hle : f.sense.cost e.value ≤ f.sense.cost c) : f.sense.Reaches f.bestBound? c := by
  unfold bestBound?
  cases h : extract f.sense f.entries with
  | none =>
      rw [extract_eq_none_iff.1 h] at he
      cases he
  | some r => exact ⟨r.1.value, rfl, (cost_extract_le h e he).trans hle⟩

/-- After a node is taken out its entry and the remaining ones are those from before. -/
theorem entries_of_pop? {f rest : Frontier K} {id : ℕ} (h : f.pop? = some (id, rest)) :
    ∃ e, e.id = id ∧ e ∈ f.entries ∧ rest.sense = f.sense ∧
      ∀ d, d ∈ f.entries ↔ d = e ∨ d ∈ rest.entries := by
  obtain ⟨e, hid, hperm, hsense⟩ := perm_of_pop?_eq_some h
  have hmem : ∀ d, d ∈ f.entries ↔ d = e ∨ d ∈ rest.entries := by
    intro d
    rw [hperm.mem_iff, List.mem_cons]
  exact ⟨e, hid, (hmem e).2 (.inl rfl), hsense, hmem⟩

end Frontier

/-! ## The bound of a state -/

namespace State

variable {σ : Type} {sense : Sense}

variable (sense) in
/-- The better of two values is at least as good as either. -/
theorem cost_betterOf_le (a b : K) :
    sense.cost (betterOf sense a b) ≤ sense.cost a ∧
      sense.cost (betterOf sense a b) ≤ sense.cost b := by
  unfold betterOf
  split
  · rename_i h
    exact ⟨((sense.improves_iff _ _).1 h).le, le_rfl⟩
  · rename_i h
    exact ⟨le_rfl, (sense.improves_eq_false_iff _ _).1 (Bool.eq_false_iff.2 h)⟩

omit [ExactScalar K] in
variable (sense) in
/-- The best of several values is one of them. -/
theorem foldl_betterOf_mem [Scalar K] (a : K) (bs : List K) :
    bs.foldl (betterOf sense) a ∈ a :: bs := by
  induction bs generalizing a with
  | nil => exact List.mem_cons_self
  | cons b bs ih =>
      rw [List.foldl_cons]
      rcases List.mem_cons.1 (ih (betterOf sense a b)) with heq | hmem
      · rw [heq]
        unfold betterOf
        split
        · exact List.mem_cons_of_mem _ List.mem_cons_self
        · exact List.mem_cons_self
      · exact List.mem_cons_of_mem _ (List.mem_cons_of_mem _ hmem)

variable (sense) in
/-- The best of several values is at least as good as each. -/
theorem cost_foldl_betterOf_le (a : K) (bs : List K) :
    ∀ b ∈ a :: bs, sense.cost (bs.foldl (betterOf sense) a) ≤ sense.cost b := by
  induction bs generalizing a with
  | nil => simp
  | cons c bs ih =>
      have hfirst := ih (betterOf sense a c) _ List.mem_cons_self
      have hbetter := cost_betterOf_le sense a c
      intro b hb
      rw [List.foldl_cons]
      rcases List.mem_cons.1 hb with rfl | hb
      · exact hfirst.trans hbetter.1
      · rcases List.mem_cons.1 hb with rfl | hb
        · exact hfirst.trans hbetter.2
        · exact ih _ b (List.mem_cons_of_mem _ hb)

/-- What cannot improve on the incumbent is reached by it. -/
theorem reaches_incumbent {i : Incumbent K} {v c : K} (h : ¬ i.canImprove v = true)
    (hle : i.sense.cost v ≤ i.sense.cost c) : i.sense.Reaches i.value? c := by
  unfold Incumbent.canImprove at h
  unfold Incumbent.value?
  cases hbest : i.best with
  | none =>
      rw [hbest] at h
      exact absurd rfl h
  | some b =>
      rw [hbest] at h
      exact ⟨b.2, rfl, ((i.sense.improves_eq_false_iff _ _).1 (Bool.eq_false_iff.2 h)).trans hle⟩

/-- **The bound reaches whatever an open node, a stalled one or the incumbent reaches.** -/
theorem reaches_bestBound? {s : State K σ} (hi : s.incumbent.sense = sense) {c : K}
    (h : sense.Reaches s.frontier.bestBound? c ∨ sense.Reaches s.stalledBound c ∨
      sense.Reaches s.incumbent.value? c) : sense.Reaches (s.bestBound? sense) c := by
  subst hi
  -- an open or stalled value counts unless the incumbent is at least as good
  have hopen : (∃ v ∈ (s.frontier.bestBound?.toList ++ s.stalledBound.toList).filter
        s.incumbent.canImprove, s.incumbent.sense.cost v ≤ s.incumbent.sense.cost c) ∨
      s.incumbent.sense.Reaches s.incumbent.value? c := by
    have hcand : (∃ v ∈ s.frontier.bestBound?.toList ++ s.stalledBound.toList,
        s.incumbent.sense.cost v ≤ s.incumbent.sense.cost c) ∨
        s.incumbent.sense.Reaches s.incumbent.value? c := by
      rcases h with ⟨v, hv, hle⟩ | ⟨v, hv, hle⟩ | h
      · exact .inl ⟨v, by simp [hv], hle⟩
      · exact .inl ⟨v, by simp [hv], hle⟩
      · exact .inr h
    rcases hcand with ⟨v, hv, hle⟩ | h
    · by_cases himp : s.incumbent.canImprove v = true
      · exact .inl ⟨v, List.mem_filter.2 ⟨hv, himp⟩, hle⟩
      · exact .inr (reaches_incumbent himp hle)
    · exact .inr h
  unfold bestBound?
  cases hbounds : (s.frontier.bestBound?.toList ++ s.stalledBound.toList).filter
      s.incumbent.canImprove with
  | nil =>
      rw [hbounds] at hopen
      exact hopen.resolve_left (by simp)
  | cons b rest =>
      rw [hbounds] at hopen
      have hbest := cost_foldl_betterOf_le s.incumbent.sense b rest
      refine ⟨_, rfl, ?_⟩
      rcases hopen with ⟨v, hv, hle⟩ | ⟨v, hv, hle⟩
      · exact (hbest v hv).trans hle
      · -- the bound improves on the incumbent, and the incumbent reaches `c`
        have himp : s.incumbent.canImprove b = true :=
          (List.mem_filter.1 (hbounds ▸ List.mem_cons_self)).2
        unfold Incumbent.canImprove at himp
        rw [Incumbent.value?, Option.map_eq_some_iff] at hv
        obtain ⟨inc, hinc, rfl⟩ := hv
        rw [hinc] at himp
        exact (hbest b List.mem_cons_self).trans
          ((((s.incumbent.sense.improves_iff _ _).1 himp).le).trans hle)

end State

end Search

end BranchBound
