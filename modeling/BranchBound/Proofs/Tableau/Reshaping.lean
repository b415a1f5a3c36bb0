import BranchBound.Proofs.Tableau.Canonical

/-!
# New objectives and fewer columns

Between the phases of a solve a tableau gets a new objective, and rows and columns are dropped from
it.  A new objective leaves the rows alone and costs every solution what the given costs say
(`Repriced`).  A restricted tableau reads its variables as the first ones of the full tableau, with
zero for all others (`Restricted.solves_iff`).
-/

namespace BranchBound

variable {K : Type} [ExactScalar K]

namespace Tableau

/-! ## New objectives -/

/-- Making an objective zero in the basic columns of some rows, for lines of one width: it keeps its
width and its value wherever the rows hold, and changes no column that the rows do not use. -/
theorem priceOut_spec {n : ℕ} {rows : List (TableauRow K)}
    (hw : ∀ r ∈ rows, r.line.coefs.length = n) (hb : ∀ r ∈ rows, r.basic < n)
    {o : Line K} (ho : o.coefs.length = n) :
    ∃ o', priceOut o rows = .ok o' ∧ o'.coefs.length = n ∧
      (∀ z, (∀ r ∈ rows, r.line.Holds z) → o'.eval z - o'.rhs = o.eval z - o.rhs) ∧
      ∀ j, (∀ r ∈ rows, r.line.coef j = 0) → o'.coef j = o.coef j := by
  induction rows generalizing o with
  | nil => exact ⟨o, rfl, ho, fun _ _ => rfl, fun _ _ => rfl⟩
  | cons r rows ih =>
      have hlen : o.coefs.length = r.line.coefs.length := ho.trans (hw r List.mem_cons_self).symm
      obtain ⟨o', hok, hlen', heval, hcoef⟩ :=
        ih (fun s hs => hw s (List.mem_cons_of_mem _ hs))
          (fun s hs => hb s (List.mem_cons_of_mem _ hs))
          (o := o.minus (o.coef r.basic) r.line) ((Line.length_minus hlen _).trans ho)
      refine ⟨o', ?_, hlen', fun z hz => ?_, fun j hj => ?_⟩
      · rw [priceOut, Line.entry?_of_lt (ho ▸ hb r List.mem_cons_self)]
        simp only [Line.eliminate_eq_minus hlen]
        exact hok
      · have hr := hz r List.mem_cons_self
        rw [heval z fun s hs => hz s (List.mem_cons_of_mem _ hs), Line.eval_minus hlen,
          Line.rhs_minus, hr]
        ring
      · rw [hcoef j fun s hs => hj s (List.mem_cons_of_mem _ hs), Line.coef_minus hlen,
          hj r List.mem_cons_self]
        ring

/-- Pricing out rows whose basic columns are unit vectors makes the objective zero there. -/
theorem priceOut_unit {n : ℕ} {rows : List (TableauRow K)}
    (hw : ∀ r ∈ rows, r.line.coefs.length = n) (hb : ∀ r ∈ rows, r.basic < n)
    (hone : ∀ r ∈ rows, r.line.coef r.basic = 1)
    (hzero : rows.Pairwise fun r s => s.line.coef r.basic = 0)
    {o o' : Line K} (ho : o.coefs.length = n) (hok : priceOut o rows = .ok o') :
    ∀ r ∈ rows, o'.coef r.basic = 0 := by
  induction rows generalizing o with
  | nil => simp
  | cons r rows ih =>
      rw [List.pairwise_cons] at hzero
      have hlen : o.coefs.length = r.line.coefs.length := ho.trans (hw r List.mem_cons_self).symm
      have hw' : ∀ s ∈ rows, s.line.coefs.length = n := fun s hs => hw s (List.mem_cons_of_mem _ hs)
      have hb' : ∀ s ∈ rows, s.basic < n := fun s hs => hb s (List.mem_cons_of_mem _ hs)
      rw [priceOut, Line.entry?_of_lt (ho ▸ hb r List.mem_cons_self)] at hok
      simp only [Line.eliminate_eq_minus hlen] at hok
      intro s hs
      rcases List.mem_cons.1 hs with rfl | hs
      · -- cleared by its own row, and left alone by the later ones
        obtain ⟨o'', hok', -, -, hcoef⟩ :=
          priceOut_spec hw' hb' ((Line.length_minus hlen (o.coef s.basic)).trans ho)
        obtain rfl : o'' = o' := Except.ok.inj (hok'.symm.trans hok)
        rw [hcoef _ hzero.1, Line.coef_minus hlen, hone s List.mem_cons_self]
        ring
      · exact ih hw' hb' (fun u hu => hone u (List.mem_cons_of_mem _ hu)) hzero.2
          ((Line.length_minus hlen _).trans ho) hok s hs

/-- The tableau `t'` is `t` with the objective given by `costs`. -/
structure Repriced (t : Tableau K) (costs : List K) (t' : Tableau K) : Prop where
  rows_eq : t'.rows = t.rows
  numCols_eq : t'.numCols = t.numCols
  canonical : t'.Canonical
  costAt_eq : ∀ z, t.Solves z → t'.costAt z = combination costs z

/-- **Any costs can be taken as the objective of a canonical tableau.** -/
theorem setObjective_spec {t : Tableau K} (hc : t.Canonical) {costs : List K}
    (hlen : costs.length = t.numCols) :
    ∃ t', t.setObjective costs = .ok t' ∧ t.Repriced costs t' := by
  have hzero : t.rows.Pairwise fun r s => s.line.coef r.basic = 0 := by
    apply List.pairwise_iff_getElem.2
    intro i j hi hj hij
    rw [hc.unit (List.getElem?_eq_getElem hi) (List.getElem?_eq_getElem hj), if_neg hij.ne']
  obtain ⟨o, hok, hwidth, heval, -⟩ :=
    priceOut_spec (o := ⟨costs, 0⟩) hc.width hc.basic_lt hlen
  refine ⟨{ t with objective := o }, ?_, rfl, hwidth, ?_, fun z hz => ?_⟩
  · rw [setObjective, if_pos hlen, hok]
    rfl
  · have hcols : Tableau.numCols { t with objective := o } = t.numCols := hwidth
    exact
      { width := fun r hr => (hc.width r hr).trans hcols.symm
        basic_lt := fun r hr => hcols ▸ hc.basic_lt r hr
        unit := hc.unit
        priced := priceOut_unit hc.width hc.basic_lt (fun r hr => hc.unit_self hr) hzero hlen hok }
  · have := heval z hz
    rw [costAt, constant, this]
    exact sub_zero _

/-! ## Fewer rows and columns -/

/-- The kept rows of a list of row numbers. -/
theorem mapM_inRange {α : Type} {xs : List α} {keep : List ℕ} (h : ∀ i ∈ keep, i < xs.length) :
    ∃ ys, keep.mapM (fun i => inRange xs[i]?) = .ok ys ∧
      List.Forall₂ (fun i y => xs[i]? = some y) keep ys := by
  induction keep with
  | nil => exact ⟨[], rfl, .nil⟩
  | cons i keep ih =>
      obtain ⟨ys, hok, hys⟩ := ih fun k hk => h k (List.mem_cons_of_mem _ hk)
      have hi := List.getElem?_eq_getElem (h i List.mem_cons_self)
      refine ⟨xs.get ⟨i, h i List.mem_cons_self⟩ :: ys, ?_, .cons hi hys⟩
      rw [List.mapM_cons, hok, hi]
      rfl

/-- The tableau `t'` consists of the rows of `t` numbered by `keep`, cut to `n` columns. -/
structure Restricted (t : Tableau K) (keep : List ℕ) (n : ℕ) (t' : Tableau K) : Prop where
  rows : List.Forall₂ (fun i r' => ∃ r, t.rows[i]? = some r ∧
    r' = { r with line := r.line.firstColumns n }) keep t'.rows
  objective : t'.objective = t.objective.firstColumns n

omit [ExactScalar K] in
/-- Keeping existing rows and columns succeeds. -/
theorem restrict_spec {t : Tableau K} {keep : List ℕ} {n : ℕ}
    (hkeep : ∀ i ∈ keep, i < t.rows.length) (hn : n ≤ t.numCols) :
    ∃ t', t.restrict keep n = .ok t' ∧ t.Restricted keep n t' := by
  obtain ⟨rows, hok, hrows⟩ := mapM_inRange hkeep
  have hlen : ¬ t.objective.entries.length < n := by
    rw [Line.length_entries]
    simp only [numCols] at hn
    omega
  refine ⟨⟨rows.map fun r => { r with line := r.line.firstColumns n },
    t.objective.firstColumns n⟩, ?_, ?_, rfl⟩
  · rw [restrict, hok]
    exact if_neg hlen
  · refine List.forall₂_map_right_iff.2 (hrows.imp fun i r hr => ?_)
    exact ⟨r, hr, rfl⟩

namespace Restricted

variable {t t' : Tableau K} {keep : List ℕ} {n : ℕ}

omit [ExactScalar K] in
/-- Every restricted row comes from a kept row. -/
theorem exists_of_getElem? (h : t.Restricted keep n t') {k : ℕ} {r' : TableauRow K}
    (hr' : t'.rows[k]? = some r') :
    ∃ i r, keep[k]? = some i ∧ t.rows[i]? = some r ∧
      r' = { r with line := r.line.firstColumns n } := by
  obtain ⟨hk, rfl⟩ := List.getElem?_eq_some_iff.1 hr'
  have hk' : k < keep.length := by rwa [h.rows.length_eq]
  obtain ⟨r, hr, heq⟩ := h.rows.get hk' hk
  exact ⟨keep[k], r, List.getElem?_eq_getElem hk', hr, heq⟩

omit [ExactScalar K] in
/-- Every kept row is found among the restricted rows. -/
theorem exists_of_mem (h : t.Restricted keep n t') {i : ℕ} (hi : i ∈ keep) :
    ∃ r, t.rows[i]? = some r ∧
      ({ r with line := r.line.firstColumns n } : TableauRow K) ∈ t'.rows := by
  obtain ⟨k, hk, rfl⟩ := List.getElem_of_mem hi
  have hk' : k < t'.rows.length := by rwa [← h.rows.length_eq]
  obtain ⟨r, hr, heq⟩ := h.rows.get hk hk'
  exact ⟨r, hr, heq ▸ List.getElem_mem hk'⟩

variable (h : t.Restricted keep n t') (hc : t.Canonical) (hn : n ≤ t.numCols)
include h hc hn

omit [ExactScalar K] hc in
theorem numCols_eq : t'.numCols = n := by
  rw [numCols, h.objective]
  exact Line.length_firstColumns hn

/-- **Rows solved for columns that stay are canonical when restricted.** -/
theorem canonical (hnd : keep.Nodup)
    (hbasic : ∀ i ∈ keep, ∀ r, t.rows[i]? = some r → r.basic < n) : t'.Canonical where
  width r' hr' := by
    obtain ⟨k, hk⟩ := List.mem_iff_getElem?.1 hr'
    obtain ⟨i, r, -, hr, rfl⟩ := h.exists_of_getElem? hk
    rw [h.numCols_eq hn]
    exact Line.length_firstColumns (hc.width r (List.mem_of_getElem? hr) ▸ hn)
  basic_lt r' hr' := by
    obtain ⟨k, hk⟩ := List.mem_iff_getElem?.1 hr'
    obtain ⟨i, r, hi, hr, rfl⟩ := h.exists_of_getElem? hk
    rw [h.numCols_eq hn]
    exact hbasic i (List.mem_of_getElem? hi) r hr
  unit {k l r' s'} hk hl := by
    obtain ⟨i, r, hi, hr, rfl⟩ := h.exists_of_getElem? hk
    obtain ⟨j, s, hj, hs, rfl⟩ := h.exists_of_getElem? hl
    have hlt := hbasic i (List.mem_of_getElem? hi) r hr
    have hw := hc.width s (List.mem_of_getElem? hs)
    rw [Line.coef_firstColumns (hw ▸ hn), if_pos hlt, hc.unit hr hs]
    have hkl : j = i ↔ l = k := by
      constructor
      · rintro rfl
        obtain ⟨hk', hik⟩ := List.getElem?_eq_some_iff.1 hi
        obtain ⟨hl', hjl⟩ := List.getElem?_eq_some_iff.1 hj
        exact (hnd.getElem_inj_iff).1 (hjl.trans hik.symm)
      · rintro rfl
        exact Option.some.inj (hj.symm.trans hi)
    simp only [hkl]
  priced r' hr' := by
    obtain ⟨k, hk⟩ := List.mem_iff_getElem?.1 hr'
    obtain ⟨i, r, -, hr, rfl⟩ := h.exists_of_getElem? hk
    rw [h.objective, Line.coef_firstColumns hn]
    split
    · exact hc.priced r (List.mem_of_getElem? hr)
    · rfl

/-- **The variables of a restricted tableau are the first ones of the full tableau.** -/
theorem solves_iff (z : ℕ → K) :
    t'.Solves z ↔ ∀ i ∈ keep, ∀ r, t.rows[i]? = some r → r.line.Holds (firstValues n z) := by
  have hholds : ∀ {i : ℕ} {r : TableauRow K}, t.rows[i]? = some r →
      ((r.line.firstColumns n).Holds z ↔ r.line.Holds (firstValues n z)) := by
    intro i r hr
    have hw := hc.width r (List.mem_of_getElem? hr)
    rw [Line.Holds, Line.Holds, Line.eval_firstColumns (hw ▸ hn), Line.rhs_firstColumns]
  constructor
  · intro hz i hi r hr
    obtain ⟨s, hs, hmem⟩ := h.exists_of_mem hi
    obtain rfl := Option.some.inj (hr.symm.trans hs)
    exact (hholds hr).1 (hz _ hmem)
  · intro hz r' hr'
    obtain ⟨k, hk⟩ := List.mem_iff_getElem?.1 hr'
    obtain ⟨i, r, hi, hr, rfl⟩ := h.exists_of_getElem? hk
    exact (hholds hr).2 (hz i (List.mem_of_getElem? hi) r hr)

end Restricted

end Tableau

end BranchBound
