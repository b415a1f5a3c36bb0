import BranchBound.Proofs.Simplex.Termination
import BranchBound.Proofs.Simplex.Sizes

/-!
# Pivots made and pivots counted

A solve makes pivots in two places.  The iteration counts its pivots and stays within the limit; the
exchanges that take artificial columns out of the basis are pivots as well, and nobody counts them.
Each pivot is announced in the record, so both are found there (`pivotsIn`, `exchangesIn`), and the
announced pivots are what takes the standard form to the last tableau (`Made`).

* `iterate_work`, `driveOut_work`: what the two places make, count and do to the artificial basic
  columns.  The iteration never brings in an artificial column and an exchange takes one out, so
  there are no more exchanges than negated constraints.
* `LinearProgram.solve_pivots`: the count of a result falls short of the pivots made by exactly the
  exchanges, and is right exactly if the first phase ends at zero without a row to be exchanged.
* `LinearProgram.lowerPinned_solve_uncounted`: the count can fall short, and more pivots can be
  made than the limit allows.
-/

namespace BranchBound

variable {K : Type} [Scalar K]

namespace Simplex

open Tableau LinearProgram

variable {settings : Settings K} {p : LinearProgram K} {f : StandardForm K}
  {t t' t'' : Tableau K} {candidates n : ℕ}

/-! ## Pivots in the record -/

omit [Scalar K] in
/-- Row and column of the pivot that an event announces. -/
def Event.pivot? : Event K → Option (ℕ × ℕ)
  | .pivot _ column row _ => some (row, column)
  | .exchange row column => some (row, column)
  | _ => none

omit [Scalar K] in
/-- The event announces a pivot that is not counted. -/
def Event.isExchange : Event K → Bool
  | .exchange _ _ => true
  | _ => false

/-- The pivots announced in a record, in order. -/
def pivotsIn (events : List (Event K)) : List (ℕ × ℕ) := events.filterMap Event.pivot?

/-- Number of exchanges in a record. -/
def exchangesIn (events : List (Event K)) : ℕ := events.countP Event.isExchange

omit [Scalar K] in
theorem pivotsIn_append (es es' : List (Event K)) :
    pivotsIn (es ++ es') = pivotsIn es ++ pivotsIn es' := List.filterMap_append

omit [Scalar K] in
theorem exchangesIn_append (es es' : List (Event K)) :
    exchangesIn (es ++ es') = exchangesIn es + exchangesIn es' := List.countP_append

omit [Scalar K] in
theorem exchangesIn_exchange (row col : ℕ) (es : List (Event K)) :
    exchangesIn (.exchange row col :: es) = exchangesIn es + 1 := List.countP_cons_of_pos rfl

/-- A tableau comes from another by exactly these pivots, in this order; besides, it may get a new
objective and may be cut. -/
inductive Made : Tableau K → List (ℕ × ℕ) → Tableau K → Prop where
  | refl (t : Tableau K) : Made t [] t
  | pivot {t t' t'' : Tableau K} {row col : ℕ} {rest : List (ℕ × ℕ)}
      (hok : t.pivot row col = .ok t') (h : Made t' rest t'') : Made t ((row, col) :: rest) t''
  | objective {t t' t'' : Tableau K} {costs : List K} {pivots : List (ℕ × ℕ)}
      (hok : t.setObjective costs = .ok t') (h : Made t' pivots t'') : Made t pivots t''
  | cut {t t' t'' : Tableau K} {keep : List ℕ} {n : ℕ} {pivots : List (ℕ × ℕ)}
      (hok : t.restrict keep n = .ok t') (h : Made t' pivots t'') : Made t pivots t''

theorem Made.trans {pivots pivots' : List (ℕ × ℕ)} (h : Made t pivots t')
    (h' : Made t' pivots' t'') : Made t (pivots ++ pivots') t'' := by
  induction h with
  | refl => exact h'
  | pivot hok _ ih => exact .pivot hok (ih h')
  | objective hok _ ih => exact .objective hok (ih h')
  | cut hok _ ih => exact .cut hok (ih h')

/-- A part of a solve: the pivots it announces take one tableau to another, and they are those it
counts and its exchanges. -/
structure Work (events : List (Event K)) (t t' : Tableau K) (counted : ℕ) : Prop where
  made : Made t (pivotsIn events) t'
  length_eq : (pivotsIn events).length = counted + exchangesIn events

namespace Work

variable {events events' : List (Event K)} {k k' : ℕ}

theorem nil (t : Tableau K) : Work [] t t 0 := ⟨.refl t, rfl⟩

/-- Parts in sequence. -/
theorem append (h : Work events t t' k) (h' : Work events' t' t'' k') :
    Work (events ++ events') t t'' (k + k') where
  made := pivotsIn_append events events' ▸ h.made.trans h'.made
  length_eq := by
    rw [pivotsIn_append, exchangesIn_append, List.length_append, h.length_eq, h'.length_eq]
    omega

/-- A part that counts nothing. -/
theorem append_uncounted (h : Work events t t' k) (h' : Work events' t' t'' 0) :
    Work (events ++ events') t t'' k := h.append h'

/-- A counted pivot. -/
theorem counted {number row col leaving : ℕ} (hok : t.pivot row col = .ok t')
    (h : Work events t' t'' k) : Work (.pivot number col row leaving :: events) t t'' (k + 1) where
  made := .pivot hok h.made
  length_eq := by
    show (pivotsIn events).length + 1 = k + 1 + exchangesIn events
    rw [h.length_eq, Nat.add_right_comm]

/-- An exchange. -/
theorem exchanged {row col : ℕ} (hok : t.pivot row col = .ok t') (h : Work events t' t'' k) :
    Work (.exchange row col :: events) t t'' k where
  made := .pivot hok h.made
  length_eq := by
    show (pivotsIn events).length + 1 = k + exchangesIn (.exchange row col :: events)
    rw [exchangesIn_exchange, h.length_eq, Nat.add_assoc]

/-- An event that announces no pivot. -/
theorem other {event : Event K} (hevent : event.pivot? = none) (h : Work events t t' k) :
    Work (event :: events) t t' k := by
  have hpivots : pivotsIn (event :: events) = pivotsIn events := List.filterMap_cons_none hevent
  have hexchanges : exchangesIn (event :: events) = exchangesIn events := by
    cases event with
    | pivot => cases hevent
    | exchange => cases hevent
    | _ => rfl
  exact ⟨hpivots.symm ▸ h.made, by rw [hpivots, hexchanges, h.length_eq]⟩

/-- A new objective before the work. -/
theorem objective {costs : List K} (hok : t.setObjective costs = .ok t')
    (h : Work events t' t'' k) : Work events t t'' k := ⟨.objective hok h.made, h.length_eq⟩

/-- A cut after the work. -/
theorem cut {keep : List ℕ} {n : ℕ} (h : Work events t t' k) (hok : t'.restrict keep n = .ok t'') :
    Work events t t'' k :=
  ⟨by simpa using h.made.trans (.cut hok (.refl t'')), h.length_eq⟩

end Work

/-! ## The iteration -/

/-- Number of rows that are solved for a column from `n` on. -/
def artificialBasics (n : ℕ) (t : Tableau K) : ℕ := t.basis.countP (fun j => decide (n ≤ j))

/-- A pivot in one of the first columns brings no further one in, and takes one out if the row had
one. -/
theorem artificialBasics_of_pivot {row col j : ℕ} (hok : t.pivot row col = .ok t')
    (hcol : col < n) (hbasic : t.basis[row]? = some j) :
    artificialBasics n t' + (if n ≤ j then 1 else 0) = artificialBasics n t := by
  obtain ⟨hrow, hj⟩ := List.getElem?_eq_some_iff.1 hbasic
  have hset : (t.basis.set row col).countP (fun j => decide (n ≤ j)) = _ := List.countP_set hrow
  rw [hj, if_neg (show ¬ decide (n ≤ col) = true by simpa using hcol), Nat.add_zero,
    ← basis_of_pivot_eq_ok hok] at hset
  rw [artificialBasics, artificialBasics, hset]
  by_cases hle : n ≤ j
  · have hpos : 0 < t.basis.countP (fun j => decide (n ≤ j)) :=
      List.countP_pos_iff.2 ⟨j, List.mem_of_getElem? hbasic, decide_eq_true hle⟩
    rw [if_pos (decide_eq_true hle), if_pos hle]
    exact Nat.sub_add_cancel hpos
  · rw [if_neg (by simpa using hle), if_neg hle]
    rfl

/-- A new objective leaves the basis alone. -/
theorem basis_of_setObjective_eq_ok {costs : List K} (h : t.setObjective costs = .ok t') :
    t'.basis = t.basis := by
  unfold setObjective at h
  split at h
  · cases hprice : priceOut ⟨costs, 0⟩ t.rows with
    | error fault => simp [hprice, Except.map] at h
    | ok objective =>
        rw [hprice] at h
        obtain rfl := Except.ok.inj h
        rfl
  · cases h

/-- The entering column is one of the candidates. -/
theorem lt_of_selectEntering_eq_ok {rule : PivotRule} {limit col : ℕ} {tol : K}
    (h : t.selectEntering rule limit tol = .ok (some col)) : col < limit := by
  have hlen : (t.objective.entries.take limit).length ≤ limit := List.length_take_le _ _
  cases rule with
  | dantzig =>
      simp only [selectEntering] at h
      split at h
      · cases h
      · obtain hnone | ⟨k, hk, hsome⟩ :=
          lowestBelow_cases 0 (-tol) none (t.objective.entries.take limit)
        · rw [hnone] at h
          cases h
        · rw [hsome, Nat.zero_add] at h
          obtain rfl := Option.some.inj (Except.ok.inj h)
          exact hk.trans_le hlen
  | firstProfitable =>
      simp only [selectEntering] at h
      split at h
      · rename_i k hk
        obtain rfl := Option.some.inj (Except.ok.inj h)
        exact (List.findIdx?_eq_some_iff_getElem.1 hk).1.trans_le hlen
      · split at h <;> cases h

/-- A counted pivot is announced, made and counted. -/
theorem countedPivot_eq_ok {s s' : Stage K} {row col : ℕ}
    (h : (countedPivot s row col).outcome = .ok s') :
    ∃ leaving t, s.tableau.basis[row]? = some leaving ∧ s.tableau.pivot row col = .ok t ∧
      s' = ⟨t, s.pivots + 1⟩ ∧
      (countedPivot s row col).events = [.pivot s.pivots col row leaving] := by
  rw [countedPivot] at h ⊢
  cases hbasic : s.tableau.basis[row]? with
  | none => simp [hbasic, inRange] at h
  | some leaving =>
      simp only [hbasic, inRange, Recorded.ofExcept_ok, Recorded.bind_ok, Recorded.report_eq] at h ⊢
      cases hok : s.tableau.pivot row col with
      | error fault => simp [hok] at h
      | ok t =>
          simp only [hok, Recorded.ofExcept_ok, Recorded.bind_ok, Recorded.pure_eq] at h ⊢
          exact ⟨leaving, t, rfl, rfl, (Except.ok.inj h).symm, rfl⟩

/-- **The iteration counts the pivots it makes**, stays within its budget, exchanges nothing and
brings in no artificial column. -/
theorem iterate_work {budget : ℕ} {s s' : Stage K} {ending : Ending}
    (h : (iterate settings candidates budget s).outcome = .ok (s', ending)) :
    ∃ k ≤ budget, s'.pivots = s.pivots + k ∧
      Work (iterate settings candidates budget s).events s.tableau s'.tableau k ∧
      exchangesIn (iterate settings candidates budget s).events = 0 ∧
      artificialBasics candidates s'.tableau ≤ artificialBasics candidates s.tableau := by
  induction budget generalizing s with
  | zero =>
      rw [iterate] at h ⊢
      cases hmove : nextMove settings candidates s.tableau with
      | error fault => simp [hmove] at h
      | ok move =>
          cases move with
          | halt _ | pivot _ _ =>
              -- without budget a pivot that is found is not made
              simp only [hmove, Recorded.ofExcept_ok, Recorded.bind_ok, Recorded.pure_eq] at h ⊢
              obtain ⟨rfl, -⟩ := Prod.mk.inj (Except.ok.inj h)
              exact ⟨0, le_rfl, rfl, .nil _, rfl, le_rfl⟩
  | succ budget ih =>
      rw [iterate] at h ⊢
      cases hmove : nextMove settings candidates s.tableau with
      | error fault => simp [hmove] at h
      | ok move =>
          cases move with
          | halt ending' =>
              simp only [hmove, Recorded.ofExcept_ok, Recorded.bind_ok, Recorded.pure_eq] at h ⊢
              obtain ⟨rfl, -⟩ := Prod.mk.inj (Except.ok.inj h)
              exact ⟨0, Nat.zero_le _, rfl, .nil _, rfl, le_rfl⟩
          | pivot row col =>
              simp only [hmove, Recorded.ofExcept_ok, Recorded.bind_ok, List.nil_append] at h ⊢
              obtain ⟨s₁, hcounted, hrest⟩ := Recorded.outcome_bind_eq_ok.1 h
              obtain ⟨leaving, t, hbasic, hok, rfl, hevents⟩ := countedPivot_eq_ok hcounted
              obtain ⟨k, hk, hpivots, hwork, hexchanges, hartificial⟩ := ih hrest
              have hcol : col < candidates := by
                obtain hhalt | hhalt | ⟨row', col', hpivot, hentering, -⟩ := nextMove_eq_ok hmove
                · cases hhalt
                · cases hhalt
                · cases hpivot
                  exact lt_of_selectEntering_eq_ok hentering
              rw [Recorded.events_bind_ok hcounted, hevents]
              refine ⟨k + 1, Nat.succ_le_succ hk, by rw [hpivots]; simp only; omega,
                hwork.counted hok, hexchanges, hartificial.trans ?_⟩
              have := artificialBasics_of_pivot hok hcol hbasic
              simp only
              omega

/-- What is left of the limit is enough for the iteration of a phase. -/
theorem primal_work {s s' : Stage K} {ending : Ending}
    (h : (primal settings candidates s).outcome = .ok (s', ending))
    (hle : s.pivots ≤ settings.maxPivots) :
    ∃ k, s'.pivots = s.pivots + k ∧ s'.pivots ≤ settings.maxPivots ∧
      Work (primal settings candidates s).events s.tableau s'.tableau k ∧
      exchangesIn (primal settings candidates s).events = 0 ∧
      artificialBasics candidates s'.tableau ≤ artificialBasics candidates s.tableau := by
  obtain ⟨k, hk, hpivots, hwork⟩ := iterate_work h
  exact ⟨k, hpivots, by omega, hwork⟩

/-! ## The exchanges -/

/-- The row is solved for a column from `n` on and has an entry to pivot on among the others. -/
def Exchangeable (tol : K) (n : ℕ) (t : Tableau K) (row : ℕ) : Prop :=
  ∃ j col, t.basis[row]? = some j ∧ n ≤ j ∧ exchangeColumn? t row n tol = .ok (some col)

theorem lt_of_exchangeColumn?_eq_ok {row col : ℕ} {tol : K}
    (h : exchangeColumn? t row n tol = .ok (some col)) : col < n := by
  cases hr : t.rows[row]? with
  | none => simp [exchangeColumn?, hr, inRange, bind, Except.bind] at h
  | some r =>
      simp only [exchangeColumn?, hr, inRange, bind, Except.bind] at h
      split at h
      · rename_i k hk
        obtain rfl := Option.some.inj (Except.ok.inj h)
        exact (List.findIdx?_eq_some_iff_getElem.1 hk).1.trans_le (List.length_take_le _ _)
      · split at h <;> cases h

/-- **Driving out counts nothing**, and each of its pivots takes an artificial column out.  It makes
none exactly if no row can be exchanged. -/
theorem driveOut_work {tol : K} {todo kept kept' : List ℕ}
    (h : (driveOut tol n todo kept t).outcome = .ok (t', kept')) :
    Work (driveOut tol n todo kept t).events t t' 0 ∧
      artificialBasics n t' + exchangesIn (driveOut tol n todo kept t).events =
        artificialBasics n t ∧
      (exchangesIn (driveOut tol n todo kept t).events = 0 ↔
        ∀ row ∈ todo, ¬ Exchangeable tol n t row) := by
  induction todo generalizing kept t with
  | nil =>
      obtain ⟨rfl, -⟩ := Prod.mk.inj (Except.ok.inj h)
      exact ⟨.nil _, rfl, by simp [driveOut, exchangesIn]⟩
  | cons row rest ih =>
      rw [driveOut] at h ⊢
      cases hbasic : t.basis[row]? with
      | none => simp [hbasic, inRange] at h
      | some j =>
          simp only [hbasic, inRange, Recorded.ofExcept_ok, Recorded.bind_ok,
            List.nil_append] at h ⊢
          by_cases hj : j < n
          · -- the row keeps its column
            rw [if_pos hj] at h ⊢
            obtain ⟨hwork, hartificial, hnone⟩ := ih h
            refine ⟨hwork, hartificial, hnone.trans ?_⟩
            rw [List.forall_mem_cons, iff_and_self]
            rintro - ⟨j', col, hbasic', hle, -⟩
            obtain rfl := Option.some.inj (hbasic.symm.trans hbasic')
            exact absurd hj (not_lt.2 hle)
          · rw [if_neg hj] at h ⊢
            cases hcol : exchangeColumn? t row n tol with
            | error fault => simp [hcol] at h
            | ok found =>
                cases found with
                | none =>
                    -- the row is given up
                    simp only [hcol, Recorded.ofExcept_ok, Recorded.bind_ok, Recorded.report_eq,
                      List.nil_append] at h ⊢
                    obtain ⟨hwork, hartificial, hnone⟩ := ih h
                    refine ⟨hwork.other rfl, hartificial, ?_⟩
                    refine (show _ ↔ _ from hnone).trans ?_
                    rw [List.forall_mem_cons, iff_and_self]
                    rintro - ⟨j', col, -, -, hcol'⟩
                    cases hcol.symm.trans hcol'
                | some col =>
                    simp only [hcol, Recorded.ofExcept_ok, Recorded.bind_ok, Recorded.report_eq,
                      List.nil_append] at h ⊢
                    cases hok : t.pivot row col with
                    | error fault => simp [hok] at h
                    | ok t₁ =>
                        simp only [hok, Recorded.ofExcept_ok, Recorded.bind_ok,
                          List.nil_append] at h ⊢
                        obtain ⟨hwork, hartificial, -⟩ := ih h
                        have hout := artificialBasics_of_pivot hok
                          (lt_of_exchangeColumn?_eq_ok hcol) hbasic
                        rw [if_pos (not_lt.1 hj)] at hout
                        rw [List.singleton_append, exchangesIn_exchange]
                        refine ⟨hwork.exchanged hok, by omega, ?_⟩
                        refine iff_of_false (Nat.succ_ne_zero _) fun hall => ?_
                        exact hall row List.mem_cons_self ⟨j, col, hbasic, not_lt.1 hj, hcol⟩

/-! ## The phases -/

/-- The first phase ends at zero in a tableau with a row to be exchanged. -/
def LeavesExchange (settings : Settings K) (f : StandardForm K) : Prop :=
  ∃ t s row, f.numArtificial ≠ 0 ∧ f.tableau.setObjective (artificialCosts f) = .ok t ∧
    (primal settings f.numStructural ⟨t, 0⟩).outcome = .ok (s, .optimal) ∧
    ¬ settings.feasTol < -s.tableau.constant ∧
    Exchangeable settings.pivotTol f.numStructural s.tableau row

/-- Removing the artificial columns counts nothing; it makes exchanges exactly if the artificial
objective is zero and a row can be exchanged. -/
theorem dropArtificials_work {found : Feasibility K}
    (h : (dropArtificials settings n t).outcome = .ok found) :
    (∃ t', Work (dropArtificials settings n t).events t t' 0 ∧
      ∀ t'', found = .feasible t'' → t'' = t') ∧
    exchangesIn (dropArtificials settings n t).events ≤ artificialBasics n t ∧
    (exchangesIn (dropArtificials settings n t).events ≠ 0 ↔
      ¬ settings.feasTol < -t.constant ∧ ∃ row, Exchangeable settings.pivotTol n t row) := by
  rw [dropArtificials] at h ⊢
  by_cases hpos : settings.feasTol < -t.constant
  · rw [if_pos hpos] at h ⊢
    obtain rfl := Except.ok.inj h
    exact ⟨⟨t, (Work.nil t).other rfl, by simp⟩, Nat.zero_le _,
      iff_of_false (fun hne => hne rfl) fun hnot => hnot.1 hpos⟩
  · rw [if_neg hpos] at h ⊢
    obtain ⟨⟨t₁, kept⟩, hdrive, hrest⟩ := Recorded.outcome_bind_eq_ok.1 h
    obtain ⟨hwork, hartificial, hnone⟩ := driveOut_work hdrive
    rw [Recorded.events_bind_ok hdrive]
    cases hcut : t₁.restrict kept n with
    | error fault => simp [hcut] at hrest
    | ok t₂ =>
        simp only [hcut, Recorded.ofExcept_ok, Recorded.bind_ok, Recorded.pure_eq,
          List.append_nil] at hrest ⊢
        obtain rfl := Except.ok.inj hrest
        refine ⟨⟨t₂, hwork.cut hcut, by simp⟩, by omega, ?_⟩
        rw [Ne, hnone, and_iff_right hpos]
        push Not
        constructor
        · rintro ⟨row, -, hrow⟩
          exact ⟨row, hrow⟩
        · rintro ⟨row, j, col, hbasic, hrow⟩
          have hlt := (List.getElem?_eq_some_iff.1 hbasic).1
          rw [basis, List.length_map] at hlt
          exact ⟨row, List.mem_range.2 hlt, j, col, hbasic, hrow⟩

/-- **What the first phase makes and counts.** -/
theorem phaseOne_work {found : Feasibility K} {pivots : ℕ}
    (h : (phaseOne settings f).outcome = .ok (found, pivots)) :
    (∃ t', Work (phaseOne settings f).events f.tableau t' pivots ∧
      ∀ t'', found = .feasible t'' → t'' = t') ∧
    pivots ≤ settings.maxPivots ∧
    exchangesIn (phaseOne settings f).events ≤ artificialBasics f.numStructural f.tableau ∧
    (exchangesIn (phaseOne settings f).events ≠ 0 ↔ LeavesExchange settings f) := by
  rw [phaseOne] at h ⊢
  by_cases hart : f.numArtificial = 0
  · rw [if_pos hart] at h ⊢
    obtain ⟨rfl, rfl⟩ := Prod.mk.inj (Except.ok.inj h)
    refine ⟨⟨f.tableau, .nil _, by simp⟩, Nat.zero_le _, Nat.zero_le _,
      iff_of_false (fun hne => hne rfl) ?_⟩
    rintro ⟨_, _, _, hne, _⟩
    exact hne hart
  rw [if_neg hart] at h ⊢
  cases hok : f.tableau.setObjective (artificialCosts f) with
  | error fault => simp [hok] at h
  | ok t =>
      simp only [hok, Recorded.ofExcept_ok, Recorded.bind_ok, List.nil_append] at h ⊢
      obtain ⟨⟨s, ending⟩, hiter, hrest⟩ := Recorded.outcome_bind_eq_ok.1 h
      obtain ⟨k, hcount, hle, hwork, hexchanges, hartificial⟩ :=
        primal_work hiter (Nat.zero_le _)
      rw [Nat.zero_add] at hcount
      subst hcount
      have hstart : artificialBasics f.numStructural t =
          artificialBasics f.numStructural f.tableau := by
        rw [artificialBasics, artificialBasics, basis_of_setObjective_eq_ok hok]
      have hleaves : LeavesExchange settings f ↔ ending = .optimal ∧
          ¬ settings.feasTol < -s.tableau.constant ∧
          ∃ row, Exchangeable settings.pivotTol f.numStructural s.tableau row := by
        constructor
        · rintro ⟨t', s', row, -, hok', hiter', hzero, hrow⟩
          obtain rfl := Except.ok.inj (hok.symm.trans hok')
          obtain ⟨rfl, rfl⟩ := Prod.mk.inj (Except.ok.inj (hiter.symm.trans hiter'))
          exact ⟨rfl, hzero, row, hrow⟩
        · rintro ⟨rfl, hzero, row, hrow⟩
          exact ⟨t, s, row, hart, hok, hiter, hzero, hrow⟩
      rw [Recorded.events_bind_ok hiter, exchangesIn_append, hexchanges, Nat.zero_add, hleaves,
        ← hstart]
      cases ending with
      | optimal =>
          obtain ⟨found', hdrop, hfound⟩ := Recorded.outcome_bind_eq_ok.1 hrest
          obtain ⟨rfl, rfl⟩ := Prod.mk.inj (Except.ok.inj hfound)
          obtain ⟨⟨t', hdropped, hlast⟩, hbound, hiff⟩ := dropArtificials_work hdrop
          simp only [Recorded.events_bind_ok hdrop, Recorded.pure_eq, List.append_nil]
          exact ⟨⟨t', (hwork.append_uncounted hdropped).objective hok, hlast⟩, hle,
            hbound.trans hartificial, hiff.trans (by rw [true_and])⟩
      | unbounded =>
          obtain ⟨rfl, rfl⟩ := Prod.mk.inj (Except.ok.inj hrest)
          exact ⟨⟨s.tableau, (hwork.append_uncounted ((Work.nil _).other rfl)).objective hok,
            by simp⟩, hle, Nat.zero_le _, iff_of_false (fun hne => hne rfl) fun h => by cases h.1⟩
      | pivotLimit =>
          obtain ⟨rfl, rfl⟩ := Prod.mk.inj (Except.ok.inj hrest)
          exact ⟨⟨s.tableau, (hwork.append_uncounted (.nil _)).objective hok, by simp⟩, hle,
            Nat.zero_le _, iff_of_false (fun hne => hne rfl) fun h => by cases h.1⟩

/-- **What the second phase makes and counts.**  An optimal point is read off its last tableau. -/
theorem phaseTwo_work {pivots : ℕ} {solution : Solution K}
    (h : (phaseTwo settings p n t pivots).outcome = .ok solution)
    (hpivots : pivots ≤ settings.maxPivots) :
    ∃ t' k, Work (phaseTwo settings p n t pivots).events t t' k ∧
      solution.pivots = pivots + k ∧ solution.pivots ≤ settings.maxPivots ∧
      exchangesIn (phaseTwo settings p n t pivots).events = 0 ∧
      (solution.status = .optimal → solution.x = t'.primalValues p.numVars) := by
  rw [phaseTwo] at h ⊢
  cases hok : t.setObjective (minimizationCosts p n) with
  | error fault => simp [hok] at h
  | ok t₁ =>
      simp only [hok, Recorded.ofExcept_ok, Recorded.bind_ok, List.nil_append] at h ⊢
      obtain ⟨⟨s, ending⟩, hiter, hrest⟩ := Recorded.outcome_bind_eq_ok.1 h
      obtain ⟨k, hcount, hle, hwork, hexchanges, -⟩ := primal_work hiter hpivots
      rw [Recorded.events_bind_ok hiter, exchangesIn_append, hexchanges, Nat.zero_add]
      cases ending with
      | optimal =>
          obtain rfl := Except.ok.inj hrest
          refine ⟨s.tableau, k, (hwork.append_uncounted ?_).objective hok, hcount, hle, rfl,
            fun _ => rfl⟩
          exact ((Work.nil _).other rfl).other rfl
      | unbounded =>
          obtain rfl := Except.ok.inj hrest
          refine ⟨s.tableau, k, (hwork.append_uncounted ?_).objective hok, hcount, hle, rfl,
            fun h => by cases h⟩
          exact (Work.nil _).other rfl
      | pivotLimit =>
          obtain rfl := Except.ok.inj hrest
          refine ⟨s.tableau, k, (hwork.append_uncounted ?_).objective hok, hcount, hle, rfl,
            fun h => by cases h⟩
          exact (Work.nil _).other rfl

/-- **What both phases make and count.** -/
theorem twoPhase_work {solution : Solution K}
    (h : (twoPhase settings p).outcome = .ok solution) :
    (∃ t, Work (twoPhase settings p).events (standardForm settings p).tableau t solution.pivots ∧
      (solution.status = .optimal → solution.x = t.primalValues p.numVars)) ∧
    solution.pivots ≤ settings.maxPivots ∧
    exchangesIn (twoPhase settings p).events ≤
      artificialBasics (p.numVars + p.numConstraints) (standardForm settings p).tableau ∧
    (exchangesIn (twoPhase settings p).events ≠ 0 ↔
      LeavesExchange settings (standardForm settings p)) := by
  rw [twoPhase] at h ⊢
  obtain ⟨⟨found, pivots⟩, hphase, hrest⟩ := Recorded.outcome_bind_eq_ok.1 h
  obtain ⟨⟨t₁, hwork, hfound⟩, hle, hbound, hiff⟩ := phaseOne_work hphase
  rw [Recorded.events_bind_ok hphase, exchangesIn_append]
  cases found with
  | feasible t =>
      obtain rfl := hfound t rfl
      obtain ⟨t', k, hwork', hpivots, hle', hexchanges, hread⟩ := phaseTwo_work hrest hle
      simp only [hexchanges, Nat.add_zero]
      exact ⟨⟨t', hpivots ▸ hwork.append hwork', hread⟩, hle', hbound, hiff⟩
  | infeasible =>
      obtain rfl := Except.ok.inj hrest
      exact ⟨⟨t₁, hwork.append_uncounted (.nil _), fun h => by cases h⟩, hle, hbound, hiff⟩
  | pivotLimit =>
      obtain rfl := Except.ok.inj hrest
      exact ⟨⟨t₁, hwork.append_uncounted (.nil _), fun h => by cases h⟩, hle, hbound, hiff⟩

/-- In the standard form each negated constraint has its artificial column. -/
theorem artificialBasics_standardForm (hp : p.Shaped) :
    artificialBasics (p.numVars + p.numConstraints) (standardForm settings p).tableau =
      (standardForm settings p).numArtificial := by
  have hrows : ∀ (k m a index artificial : ℕ) (cs : List (List K × K)), index + cs.length ≤ m →
      ((standardRows settings k m a index artificial cs).map TableauRow.basic).countP
        (fun j => decide (k + m ≤ j)) = cs.countP (fun c => isNegated settings c.2) := by
    intro k m a index artificial cs hlen
    induction cs generalizing index artificial with
    | nil => rfl
    | cons c cs ih =>
        rw [List.length_cons] at hlen
        rw [standardRows, List.countP_cons]
        split
        · have hle : decide (k + m ≤ k + m + artificial) = true := by simp
          rw [List.map_cons, List.countP_cons, ih _ _ (by omega), if_pos hle]
        · have hlt : ¬ decide (k + m ≤ k + index) = true := by simpa using by omega
          rw [List.map_cons, List.countP_cons, ih _ _ (by omega), if_neg hlt]
  have hlen : (p.rows.zip p.limits).length = p.numConstraints := by
    rw [List.length_zip, hp.rows_length]
    exact min_self _
  have hsnd : (p.rows.zip p.limits).map Prod.snd = p.limits :=
    List.map_snd_zip (by rw [hp.rows_length]; exact le_rfl)
  refine (hrows _ _ _ 0 0 _ (by rw [hlen, Nat.zero_add])).trans ?_
  show _ = p.limits.countP (isNegated settings)
  rw [← hsnd, List.countP_map, hsnd]
  rfl

end Simplex

namespace LinearProgram

open Simplex Tableau

variable {settings : Settings K} {p : LinearProgram K}

/-- **What the count of a result counts.**  A result is reached from the standard form by the
announced pivots, and an optimal point is read off the tableau they lead to.  The count stays within
the limit; it is the number of these pivots less the exchanges, and there is at most one exchange
per negated constraint.  The count is the number of pivots exactly if the first phase does not end
at zero with a row to be exchanged. -/
theorem solve_pivots {run : Run K (Solution K)} {solution : Solution K}
    (hrun : p.solve settings = .ok run) (hok : run.outcome = .ok solution) :
    (∃ t, Made (standardForm settings p).tableau (pivotsIn run.events) t ∧
      (solution.status = .optimal → solution.x = t.primalValues p.numVars)) ∧
    solution.pivots ≤ settings.maxPivots ∧
    (pivotsIn run.events).length = solution.pivots + exchangesIn run.events ∧
    exchangesIn run.events ≤ (standardForm settings p).numArtificial ∧
    ((pivotsIn run.events).length = solution.pivots ↔
      ¬ LeavesExchange settings (standardForm settings p)) := by
  obtain ⟨hcheck, rfl⟩ := check_of_solve_eq_ok hrun
  obtain ⟨hp, -⟩ := p.check_eq_ok_iff_isFinite.1 hcheck
  obtain ⟨⟨t, hwork, hread⟩, hle, hbound, hiff⟩ := twoPhase_work hok
  rw [artificialBasics_standardForm hp] at hbound
  refine ⟨⟨t, hwork.made, hread⟩, hle, hwork.length_eq, hbound, ?_⟩
  rw [← hiff, hwork.length_eq]
  omega

/-- Minimize `x` under `x ≤ 1` and `x ≥ 1`. -/
def lowerPinned : LinearProgram Binary64 where
  objective := [1]
  rows := [[1], [-1]]
  limits := [1, -1]
  sense := .minimize

/-- In double precision the first phase brings `x` in for the slack and ends at zero, with the
artificial column still basic. -/
theorem lowerPinned_leaves_exchange :
    (∃ run solution, lowerPinned.solve .standard = .ok run ∧ run.outcome = .ok solution ∧
      (pivotsIn run.events).length ≠ solution.pivots) ∧
    LeavesExchange .standard (standardForm .standard lowerPinned) := by
  have hcheck : lowerPinned.check = .ok () := by decide +kernel
  have heval : (twoPhase .standard lowerPinned).outcome.map (fun s => s.pivots) = .ok 1 := by
    decide +kernel
  have hmade : pivotsIn (twoPhase .standard lowerPinned).events = [(0, 0), (1, 1)] := by
    decide +kernel
  obtain ⟨solution, hok, hpivots⟩ := exists_of_map_eq_ok heval
  have hne : (pivotsIn (twoPhase .standard lowerPinned).events).length ≠ solution.pivots := by
    rw [hmade, hpivots]
    decide
  obtain ⟨-, -, -, -, hiff⟩ := solve_pivots (solve_eq_ok hcheck .standard) hok
  exact ⟨⟨_, solution, solve_eq_ok hcheck _, hok, hne⟩, not_not.1 fun hnot => hne (hiff.2 hnot)⟩

/-- **The count can be wrong, and so can the limit be passed**: within a limit of one pivot, this
program is solved by two, of which one is counted. -/
theorem lowerPinned_solve_uncounted :
    lowerPinned.check = .ok () ∧
    ∃ run solution, lowerPinned.solve (Settings.standard.withMaxPivots 1) = .ok run ∧
      run.outcome = .ok solution ∧ solution.status = .optimal ∧ solution.pivots = 1 ∧
      pivotsIn run.events = [(0, 0), (1, 1)] := by
  have hcheck : lowerPinned.check = .ok () := by decide +kernel
  have heval : (twoPhase (Settings.standard.withMaxPivots 1) lowerPinned).outcome.map
      (fun s => (s.status, s.pivots)) = .ok (.optimal, 1) := by
    decide +kernel
  have hmade : pivotsIn (twoPhase (Settings.standard.withMaxPivots 1) lowerPinned).events =
      [(0, 0), (1, 1)] := by
    decide +kernel
  obtain ⟨solution, hok, hresult⟩ := exists_of_map_eq_ok heval
  obtain ⟨hstatus, hpivots⟩ := Prod.mk.inj hresult
  exact ⟨hcheck, _, solution, solve_eq_ok hcheck _, hok, hstatus, hpivots, hmade⟩

end LinearProgram

end BranchBound
