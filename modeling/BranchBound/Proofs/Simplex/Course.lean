import BranchBound.Proofs.Simplex.Sizes

/-!
# The course of a solve

A solve goes from tableau to tableau: the standard form, the pivots that minimize the artificial
columns, the exchanges that take these out of the basis, the cut that removes them, and the pivots
that minimize the objective.  `Reached` lists the tableaus of a solve, each with the place at which
it occurs, so that what holds of all of them is shown by going through the ways to reach one.

Over any scalars the tableaus of a solve are sized, and what a place asks for next is in range
(`Reached.inRange`, `Reached.ready`): the costs are as many as the columns, the rows and columns
looked at exist, and no pivot is on zero.

Hence every solve takes its course and has a result (`exists_twoPhase`), and an optimal one is read
off the last tableau (`ReadOff`).
-/

namespace BranchBound

variable {K : Type} [Scalar K]

namespace Simplex

open Tableau

/-- Where a solve is while it has a tableau. -/
inductive Place where
  /-- The standard form has been set up. -/
  | standard
  /-- The artificial columns are minimized. -/
  | minimizing
  /-- Artificial columns are exchanged: rows still to be treated, and rows kept so far. -/
  | exchanging (todo kept : List ℕ)
  /-- There is a basis over variables and slacks. -/
  | based
  /-- The objective is minimized. -/
  | optimizing

variable {settings : LinearProgram.Settings K} {p : LinearProgram K}

/-- The tableaus that a solve comes to, and where. -/
inductive Reached (settings : LinearProgram.Settings K) (p : LinearProgram K) :
    Place → Tableau K → Prop where
  | standard : Reached settings p .standard (standardForm settings p).tableau
  /-- No constraint is negated. -/
  | direct {t : Tableau K} (h : Reached settings p .standard t)
      (hart : (standardForm settings p).numArtificial = 0) : Reached settings p .based t
  | artificial {t t' : Tableau K} (h : Reached settings p .standard t)
      (hart : (standardForm settings p).numArtificial ≠ 0)
      (hok : t.setObjective (artificialCosts (standardForm settings p)) = .ok t') :
      Reached settings p .minimizing t'
  | artificialPivot {t t' : Tableau K} {row col : ℕ} (h : Reached settings p .minimizing t)
      (hmove : nextMove settings (p.numVars + p.numConstraints) t = .ok (.pivot row col))
      (hok : t.pivot row col = .ok t') : Reached settings p .minimizing t'
  /-- The artificial columns are at their least, and that is zero. -/
  | minimized {t : Tableau K} (h : Reached settings p .minimizing t)
      (hhalt : nextMove settings (p.numVars + p.numConstraints) t = .ok (.halt .optimal))
      (hzero : ¬ settings.feasTol < -t.constant) :
      Reached settings p (.exchanging (List.range t.numRows) []) t
  | keep {t : Tableau K} {row j : ℕ} {todo kept : List ℕ}
      (h : Reached settings p (.exchanging (row :: todo) kept) t) (hbasic : t.basis[row]? = some j)
      (hj : j < p.numVars + p.numConstraints) :
      Reached settings p (.exchanging todo (kept ++ [row])) t
  | exchange {t t' : Tableau K} {row j col : ℕ} {todo kept : List ℕ}
      (h : Reached settings p (.exchanging (row :: todo) kept) t) (hbasic : t.basis[row]? = some j)
      (hj : ¬ j < p.numVars + p.numConstraints)
      (hcol : exchangeColumn? t row (p.numVars + p.numConstraints) settings.pivotTol =
        .ok (some col))
      (hok : t.pivot row col = .ok t') : Reached settings p (.exchanging todo (kept ++ [row])) t'
  | giveUp {t : Tableau K} {row j : ℕ} {todo kept : List ℕ}
      (h : Reached settings p (.exchanging (row :: todo) kept) t) (hbasic : t.basis[row]? = some j)
      (hj : ¬ j < p.numVars + p.numConstraints)
      (hnone : exchangeColumn? t row (p.numVars + p.numConstraints) settings.pivotTol = .ok none) :
      Reached settings p (.exchanging todo kept) t
  | cut {t t' : Tableau K} {kept : List ℕ} (h : Reached settings p (.exchanging [] kept) t)
      (hok : t.restrict kept (p.numVars + p.numConstraints) = .ok t') :
      Reached settings p .based t'
  | priced {t t' : Tableau K} (h : Reached settings p .based t)
      (hok : t.setObjective (minimizationCosts p (p.numVars + p.numConstraints)) = .ok t') :
      Reached settings p .optimizing t'
  | pivot {t t' : Tableau K} {row col : ℕ} (h : Reached settings p .optimizing t)
      (hmove : nextMove settings (p.numVars + p.numConstraints) t = .ok (.pivot row col))
      (hok : t.pivot row col = .ok t') : Reached settings p .optimizing t'

/-! ## Ranges -/

/-- Number of columns at a place. -/
def Place.numCols (settings : LinearProgram.Settings K) (p : LinearProgram K) : Place → ℕ
  | .standard | .minimizing | .exchanging _ _ =>
      p.numVars + p.numConstraints + (standardForm settings p).numArtificial
  | .based | .optimizing => p.numVars + p.numConstraints

/-- The rows still to be treated exist, and those kept are solved for a variable or a slack. -/
def Place.RowsFit (p : LinearProgram K) : Place → Tableau K → Prop
  | .exchanging todo kept, t =>
      (∀ i ∈ todo, i < t.numRows) ∧ t.SolvedWithin (p.numVars + p.numConstraints) kept
  | _, _ => True

/-- The tableau has the columns that belong to its place, and the rows that the place names. -/
structure InRange (settings : LinearProgram.Settings K) (p : LinearProgram K) (place : Place)
    (t : Tableau K) : Prop where
  sized : t.Sized (place.numCols settings p)
  rows : place.RowsFit p t

/-- A row and a column of the tableau, with an entry that is not zero, and the pivot there
succeeds. -/
structure PivotsAt (t : Tableau K) (row col : ℕ) : Prop where
  row_lt : row < t.numRows
  col_lt : col < t.numCols
  entry : ∃ r v, t.rows[row]? = some r ∧ r.line.entry? col = some v ∧ Scalar.isZero v = false
  succeeds : ∃ t', t.pivot row col = .ok t'

/-- The iteration halts here, or pivots on an entry that is not zero. -/
def Moves (settings : LinearProgram.Settings K) (candidates : ℕ) (t : Tableau K) : Prop :=
  (∃ ending, nextMove settings candidates t = .ok (.halt ending)) ∨
    ∃ row col, nextMove settings candidates t = .ok (.pivot row col) ∧ PivotsAt t row col

/-- There is one cost for each column, and the costs become the objective. -/
def Accepts (t : Tableau K) (costs : List K) : Prop :=
  costs.length = t.numCols ∧ ∃ t', t.setObjective costs = .ok t'

/-- What a place asks for next is in range and has a result. -/
def Place.Ready (settings : LinearProgram.Settings K) (p : LinearProgram K) :
    Place → Tableau K → Prop
  | .standard, t =>
      t.numRows = p.numConstraints ∧ Accepts t (artificialCosts (standardForm settings p))
  | .minimizing, t => Moves settings (p.numVars + p.numConstraints) t
  | .exchanging (row :: _) _, t =>
      ∃ j, t.basis[row]? = some j ∧
        (j < p.numVars + p.numConstraints ∨
          exchangeColumn? t row (p.numVars + p.numConstraints) settings.pivotTol = .ok none ∨
          ∃ col, exchangeColumn? t row (p.numVars + p.numConstraints) settings.pivotTol =
            .ok (some col) ∧ PivotsAt t row col)
  | .exchanging [] kept, t =>
      (∀ i ∈ kept, ∃ j < p.numVars + p.numConstraints, t.basis[i]? = some j) ∧
        p.numVars + p.numConstraints ≤ t.numCols ∧
        ∃ t', t.restrict kept (p.numVars + p.numConstraints) = .ok t'
  | .based, t => Accepts t (minimizationCosts p (p.numVars + p.numConstraints))
  | .optimizing, t => Moves settings (p.numVars + p.numConstraints) t

section Sized

variable {t t' : Tableau K} {n : ℕ} (h : t.Sized n)
include h

/-- An entry that is not zero can be pivoted on. -/
theorem pivotsAt_of_sized {row col : ℕ} {r : TableauRow K} {v : K} (hr : t.rows[row]? = some r)
    (hv : r.line.entry? col = some v) (hcol : col < n) (hne : Scalar.isZero v = false) :
    PivotsAt t row col where
  row_lt := (List.getElem?_eq_some_iff.1 hr).1
  col_lt := h.numCols_eq.symm ▸ hcol
  entry := ⟨r, v, hr, hv, hne⟩
  succeeds := by
    obtain ⟨t', hok, -⟩ := h.pivot hr hv hcol hne
    exact ⟨t', hok⟩

/-- Pivots keep the sizes. -/
theorem PivotsAt.sized {row col : ℕ} (hat : PivotsAt t row col) (hok : t.pivot row col = .ok t') :
    t'.Sized n := by
  obtain ⟨r, v, hr, hv, hne⟩ := hat.entry
  obtain ⟨t'', hok', hsized⟩ := h.pivot hr hv (h.numCols_eq ▸ hat.col_lt) hne
  obtain rfl := Except.ok.inj (hok'.symm.trans hok)
  exact hsized

/-- The iteration halts in a sized tableau or pivots above the tolerance. -/
theorem moves_of_sized (htol : Scalar.ExcludesZero settings.pivotTol) {candidates : ℕ}
    (hcandidates : candidates ≤ n) : Moves settings candidates t := by
  obtain hhalt | ⟨row, col, r, v, hmove, hr, hv, hcol, hlt⟩ :=
    nextMove_cases settings h hcandidates
  · exact .inl hhalt
  · exact .inr ⟨row, col, hmove, pivotsAt_of_sized h hr hv hcol (htol v (.inl hlt))⟩

/-- A pivot of the iteration keeps the sizes. -/
theorem sized_of_nextMove (htol : Scalar.ExcludesZero settings.pivotTol) {candidates : ℕ}
    (hcandidates : candidates ≤ n) {row col : ℕ}
    (hmove : nextMove settings candidates t = .ok (.pivot row col))
    (hok : t.pivot row col = .ok t') : t'.Sized n := by
  obtain ⟨ending, hhalt⟩ | ⟨row', col', hmove', hat⟩ := moves_of_sized h htol hcandidates
  · cases hhalt.symm.trans hmove
  · obtain ⟨rfl, rfl⟩ : row' = row ∧ col' = col := by simpa using hmove'.symm.trans hmove
    exact hat.sized h hok

/-- An exchange is a pivot on an entry above the tolerance. -/
theorem pivotsAt_of_exchangeColumn? (htol : Scalar.ExcludesZero settings.pivotTol) {row col k : ℕ}
    (hrow : row < t.numRows) (hk : k ≤ n)
    (hcol : exchangeColumn? t row k settings.pivotTol = .ok (some col)) :
    col < k ∧ PivotsAt t row col := by
  have hr := List.getElem?_eq_getElem hrow
  obtain hnone | ⟨col', v, hcol', hlt, hv, hlarge⟩ :=
    exchangeColumn?_finds h hr hk settings.pivotTol
  · cases hnone.symm.trans hcol
  · obtain rfl : col' = col := by simpa using hcol'.symm.trans hcol
    exact ⟨hlt, pivotsAt_of_sized h hr hv (hlt.trans_le hk) (htol v (.inr hlarge))⟩

/-- A sized tableau accepts one cost per column. -/
theorem accepts_of_sized {costs : List K} (hcosts : costs.length = n) : Accepts t costs := by
  obtain ⟨t', hok, -⟩ := h.setObjective hcosts
  exact ⟨hcosts.trans h.numCols_eq.symm, t', hok⟩

/-- A new objective keeps the sizes. -/
theorem sized_of_setObjective {costs : List K} (hcosts : costs.length = n)
    (hok : t.setObjective costs = .ok t') : t'.Sized n := by
  obtain ⟨t'', hok', hsized⟩ := h.setObjective hcosts
  obtain rfl := Except.ok.inj (hok'.symm.trans hok)
  exact hsized

end Sized

/-- The standard form has one row per constraint. -/
theorem numRows_standardForm (settings : LinearProgram.Settings K) (hp : p.Shaped) :
    (standardForm settings p).tableau.numRows = p.numConstraints := by
  have hrows : ∀ (n m a index artificial : ℕ) (cs : List (List K × K)),
      (standardRows settings n m a index artificial cs).length = cs.length := by
    intro n m a index artificial cs
    induction cs generalizing index artificial with
    | nil => rfl
    | cons c cs ih =>
        rw [standardRows]
        split <;> rw [List.length_cons, List.length_cons, ih]
  exact (hrows ..).trans (length_constraints hp)

section Course

variable {place : Place} {t : Tableau K} (hp : p.Shaped)
  (htol : Scalar.ExcludesZero settings.pivotTol)
include hp htol

/-- **Every tableau of a solve has the columns of its place, and the rows that the place names.** -/
theorem Reached.inRange (h : Reached settings p place t) : InRange settings p place t := by
  have hstructural : p.numVars + p.numConstraints ≤
      p.numVars + p.numConstraints + (standardForm settings p).numArtificial :=
    Nat.le_add_right _ _
  induction h with
  | standard => exact ⟨standardForm_sized settings hp, trivial⟩
  | direct _ hart ih =>
      have hsized := ih.sized
      rw [Place.numCols, hart] at hsized
      exact ⟨hsized, trivial⟩
  | artificial _ _ hok ih =>
      exact ⟨sized_of_setObjective ih.sized (length_artificialCosts settings p) hok, trivial⟩
  | artificialPivot _ hmove hok ih =>
      exact ⟨sized_of_nextMove ih.sized htol hstructural hmove hok, trivial⟩
  | minimized _ _ _ ih =>
      exact ⟨ih.sized, fun i hi => List.mem_range.1 hi, by simp [SolvedWithin]⟩
  | keep _ hbasic hj ih =>
      obtain ⟨htodo, hkept⟩ := ih.rows
      refine ⟨ih.sized, fun i hi => htodo i (List.mem_cons_of_mem _ hi), fun i hi => ?_⟩
      rcases List.mem_append.1 hi with hi | hi
      · exact hkept i hi
      · obtain rfl := List.mem_singleton.1 hi
        exact ⟨_, hj, hbasic⟩
  | exchange _ _ _ hcol hok ih =>
      obtain ⟨htodo, hkept⟩ := ih.rows
      have hrow := htodo _ List.mem_cons_self
      obtain ⟨hlt, hat⟩ := pivotsAt_of_exchangeColumn? ih.sized htol hrow hstructural hcol
      refine ⟨hat.sized ih.sized hok, fun i hi => ?_, solvedWithin_of_pivot hkept hok hrow hlt⟩
      rw [numRows_of_pivot_eq_ok hok]
      exact htodo i (List.mem_cons_of_mem _ hi)
  | giveUp _ _ _ _ ih =>
      obtain ⟨htodo, hkept⟩ := ih.rows
      exact ⟨ih.sized, fun i hi => htodo i (List.mem_cons_of_mem _ hi), hkept⟩
  | cut _ hok ih =>
      obtain ⟨t'', hok', hsized⟩ := ih.sized.restrict hstructural ih.rows.2
      obtain rfl := Except.ok.inj (hok'.symm.trans hok)
      exact ⟨hsized, trivial⟩
  | priced _ hok ih =>
      exact ⟨sized_of_setObjective ih.sized (length_minimizationCosts p) hok, trivial⟩
  | pivot _ hmove hok ih =>
      exact ⟨sized_of_nextMove ih.sized htol le_rfl hmove hok, trivial⟩

/-- **What a place of a solve asks for next is in range.** -/
theorem Reached.ready (h : Reached settings p place t) : place.Ready settings p t := by
  have hrange := h.inRange hp htol
  have hstructural : p.numVars + p.numConstraints ≤
      p.numVars + p.numConstraints + (standardForm settings p).numArtificial :=
    Nat.le_add_right _ _
  cases place with
  | standard =>
      cases h
      exact ⟨numRows_standardForm settings hp,
        accepts_of_sized hrange.sized (length_artificialCosts settings p)⟩
  | minimizing => exact moves_of_sized hrange.sized htol hstructural
  | exchanging todo kept =>
      cases todo with
      | nil =>
          obtain ⟨t', hok, -⟩ := hrange.sized.restrict hstructural hrange.rows.2
          exact ⟨hrange.rows.2, hrange.sized.numCols_eq.symm ▸ hstructural, t', hok⟩
      | cons row todo =>
          have hrow := hrange.rows.1 row List.mem_cons_self
          have hr := List.getElem?_eq_getElem hrow
          refine ⟨_, by rw [getElem?_basis, hr, Option.map_some], .inr ?_⟩
          refine (exchangeColumn?_finds hrange.sized hr hstructural settings.pivotTol).imp_right ?_
          rintro ⟨col, -, hcol, -⟩
          exact ⟨col, hcol, (pivotsAt_of_exchangeColumn? hrange.sized htol hrow hstructural hcol).2⟩
  | based => exact accepts_of_sized hrange.sized (length_minimizationCosts p)
  | optimizing => exact moves_of_sized hrange.sized htol le_rfl

end Course

/-! ## Every solve takes its course -/

/-- **Where the iteration always can move, it ends**, and what its pivots keep holds at its end. -/
theorem exists_iterate {candidates : ℕ} {Q : Tableau K → Prop}
    (hmoves : ∀ t, Q t → Moves settings candidates t)
    (hkeeps : ∀ {t t' row col}, Q t → nextMove settings candidates t = .ok (.pivot row col) →
      t.pivot row col = .ok t' → Q t')
    (budget : ℕ) {s : Stage K} (h : Q s.tableau) :
    ∃ s' ending, (iterate settings candidates budget s).outcome = .ok (s', ending) ∧
      Q s'.tableau ∧ (ending ≠ .pivotLimit →
        nextMove settings candidates s'.tableau = .ok (.halt ending)) := by
  induction budget generalizing s with
  | zero =>
      obtain ⟨ending, hmove⟩ | ⟨row, col, hmove, -⟩ := hmoves _ h
      · exact ⟨s, ending, by rw [iterate, hmove]; rfl, h, fun _ => hmove⟩
      · exact ⟨s, .pivotLimit, by rw [iterate, hmove]; rfl, h, fun hne => absurd rfl hne⟩
  | succ budget ih =>
      obtain ⟨ending, hmove⟩ | ⟨row, col, hmove, hat⟩ := hmoves _ h
      · exact ⟨s, ending, by rw [iterate, hmove]; rfl, h, fun _ => hmove⟩
      · obtain ⟨t', hok⟩ := hat.succeeds
        obtain ⟨s', ending, hrest, hend⟩ := ih (s := ⟨t', s.pivots + 1⟩) (hkeeps h hmove hok)
        refine ⟨s', ending, ?_, hend⟩
        rw [iterate, hmove]
        simp only [Recorded.ofExcept_ok, Recorded.bind_ok, List.nil_append]
        exact Recorded.outcome_bind_eq_ok.2 ⟨_, countedPivot_outcome hok, hrest⟩

section Course

variable {t : Tableau K} (hp : p.Shaped) (htol : Scalar.ExcludesZero settings.pivotTol)
include hp htol

/-- Driving out goes through all rows. -/
theorem exists_driveOut {todo kept : List ℕ} (h : Reached settings p (.exchanging todo kept) t) :
    ∃ t' kept', (driveOut settings.pivotTol (p.numVars + p.numConstraints) todo kept t).outcome =
      .ok (t', kept') ∧ Reached settings p (.exchanging [] kept') t' := by
  induction todo generalizing kept t with
  | nil => exact ⟨t, kept, rfl, h⟩
  | cons row rest ih =>
      obtain ⟨j, hbasic, hready⟩ := h.ready hp htol
      rw [driveOut, hbasic]
      simp only [inRange, Recorded.ofExcept_ok, Recorded.bind_ok, List.nil_append]
      by_cases hj : j < p.numVars + p.numConstraints
      · rw [if_pos hj]
        exact ih (h.keep hbasic hj)
      · rw [if_neg hj]
        obtain hnone | ⟨col, hcol, hat⟩ := hready.resolve_left hj
        · rw [hnone]
          exact ih (h.giveUp hbasic hj hnone)
        · obtain ⟨t₁, hok⟩ := hat.succeeds
          rw [hcol]
          simp only [Recorded.ofExcept_ok, Recorded.bind_ok, Recorded.report_eq, hok]
          exact ih (h.exchange hbasic hj hcol hok)

/-- Where the artificial columns are at their least, removing them succeeds. -/
theorem exists_dropArtificials (h : Reached settings p .minimizing t)
    (hhalt : nextMove settings (p.numVars + p.numConstraints) t = .ok (.halt .optimal)) :
    ∃ found, (dropArtificials settings (p.numVars + p.numConstraints) t).outcome = .ok found ∧
      ∀ t', found = .feasible t' → Reached settings p .based t' := by
  rw [dropArtificials]
  by_cases hpos : settings.feasTol < -t.constant
  · rw [if_pos hpos]
    exact ⟨.infeasible, rfl, by simp⟩
  · obtain ⟨t₁, kept, hok, hreached⟩ := exists_driveOut hp htol (h.minimized hhalt hpos)
    obtain ⟨-, -, t₂, hok'⟩ := hreached.ready hp htol
    refine ⟨.feasible t₂, ?_, ?_⟩
    · rw [if_neg hpos, Recorded.outcome_bind, hok]
      show (Recorded.ofExcept (t₁.restrict kept _) >>= _).outcome = _
      rw [hok']
      rfl
    · rintro t' ⟨⟩
      exact hreached.cut hok'

/-- **The first phase ends without a fault.** -/
theorem exists_phaseOne :
    ∃ found pivots,
      (phaseOne settings (standardForm settings p)).outcome = .ok (found, pivots) ∧
        ∀ t, found = .feasible t → Reached settings p .based t := by
  have hstart : Reached settings p .standard (standardForm settings p).tableau := .standard
  by_cases hart : (standardForm settings p).numArtificial = 0
  · refine ⟨_, 0, phaseOne_of_numArtificial_eq_zero hart, ?_⟩
    rintro t ⟨⟩
    exact hstart.direct hart
  · obtain ⟨-, -, t, hok⟩ := hstart.ready hp htol
    obtain ⟨s, ending, hiter, hs, hend⟩ := exists_iterate
      (Q := Reached settings p .minimizing) (fun t h => h.ready hp htol)
      (fun h hmove hok => h.artificialPivot hmove hok) settings.maxPivots (s := ⟨t, 0⟩)
      (hstart.artificial hart hok)
    have hphase := outcome_phaseOne hart hok hiter
    cases ending with
    | optimal =>
        obtain ⟨found, hdrop, hfound⟩ := exists_dropArtificials hp htol hs (hend (by simp))
        refine ⟨found, s.pivots, ?_, hfound⟩
        rw [hphase]
        simp only [hdrop]
        rfl
    | unbounded => exact ⟨.infeasible, s.pivots, hphase, by simp⟩
    | pivotLimit => exact ⟨.pivotLimit, s.pivots, hphase, by simp⟩

end Course

/-- An optimal solution is read off a tableau of the solve that has no improving column. -/
def ReadOff (settings : LinearProgram.Settings K) (p : LinearProgram K)
    (solution : LinearProgram.Solution K) : Prop :=
  ∃ t, Reached settings p .optimizing t ∧
    nextMove settings (p.numVars + p.numConstraints) t = .ok (.halt .optimal) ∧
    solution.x = t.primalValues p.numVars ∧
    solution.value = match p.sense with
      | .maximize => t.constant
      | .minimize => -t.constant

/-- The second phase has a result at every end of its iteration. -/
theorem exists_conclude_readOff {s : Stage K} {ending : Ending}
    (h : Reached settings p .optimizing s.tableau) (hend : ending ≠ .pivotLimit →
      nextMove settings (p.numVars + p.numConstraints) s.tableau = .ok (.halt ending)) :
    ∃ solution, (conclude p s ending).outcome = .ok solution ∧ solution.x.length ≤ p.numVars ∧
      (solution.status = .optimal → ReadOff settings p solution) := by
  cases ending with
  | optimal =>
      refine ⟨_, rfl, ?_, fun _ => ⟨s.tableau, h, hend (by simp), rfl, rfl⟩⟩
      show (s.tableau.primalValues p.numVars).length ≤ _
      rw [length_primalValues]
  | unbounded => exact ⟨_, rfl, Nat.zero_le _, by simp [LinearProgram.Solution.unbounded]⟩
  | pivotLimit => exact ⟨_, rfl, Nat.zero_le _, by simp [LinearProgram.Solution.pivotLimit]⟩

/-- **The second phase ends without a fault.** -/
theorem exists_phaseTwo (hp : p.Shaped) (htol : Scalar.ExcludesZero settings.pivotTol)
    {t : Tableau K} (h : Reached settings p .based t) (pivots : ℕ) :
    ∃ solution,
      (phaseTwo settings p (p.numVars + p.numConstraints) t pivots).outcome = .ok solution ∧
        solution.x.length ≤ p.numVars ∧
        (solution.status = .optimal → ReadOff settings p solution) := by
  obtain ⟨-, t', hok⟩ := h.ready hp htol
  obtain ⟨s, ending, hiter, hs, hend⟩ := exists_iterate (Q := Reached settings p .optimizing)
    (fun t h => h.ready hp htol) (fun h hmove hok => h.pivot hmove hok)
    (settings.maxPivots - pivots) (s := ⟨t', pivots⟩) (h.priced hok)
  obtain ⟨solution, hconclude, hresult⟩ := exists_conclude_readOff hs hend
  exact ⟨solution, outcome_phaseTwo hok hiter hconclude, hresult⟩

/-- **A program whose parts fit together is solved without a fault over any scalars**, the result
has at most one value per variable, and an optimal one is read off the last tableau. -/
theorem exists_twoPhase (hp : p.Shaped) (htol : Scalar.ExcludesZero settings.pivotTol) :
    ∃ solution, (twoPhase settings p).outcome = .ok solution ∧ solution.x.length ≤ p.numVars ∧
      (solution.status = .optimal → ReadOff settings p solution) := by
  obtain ⟨found, pivots, hphase, hfound⟩ := exists_phaseOne hp htol
  rw [outcome_twoPhase hphase]
  cases found with
  | feasible t => exact exists_phaseTwo hp htol (hfound t rfl) pivots
  | infeasible =>
      exact ⟨_, rfl, Nat.zero_le _, by simp [LinearProgram.Solution.infeasible]⟩
  | pivotLimit => exact ⟨_, rfl, Nat.zero_le _, by simp [LinearProgram.Solution.pivotLimit]⟩

end Simplex

namespace LinearProgram

open Simplex Tableau

variable {settings : Settings K} {p : LinearProgram K}

/-- **A sound program is solved without a fault, whatever the scalars compute**, as long as nothing
above the tolerance for pivots is zero.  All along the solve the tableau has one line more than
basic columns, its lines have one coefficient for each of the columns that belong to the place, and
its basic columns are among these; costs are as many as the columns; the rows and columns that are
asked for exist; and no pivot is on zero.  An optimal solution is read off such a tableau. -/
theorem solve_inRange (hcheck : p.check = .ok ()) (htol : Scalar.ExcludesZero settings.pivotTol) :
    (∃ run solution, p.solve settings = .ok run ∧ run.outcome = .ok solution ∧
      (solution.status = .optimal → ReadOff settings p solution)) ∧
    ∀ place t, Reached settings p place t →
      t.lines.length = t.basis.length + 1 ∧ t.Sized (place.numCols settings p) ∧
        place.Ready settings p t := by
  obtain ⟨hp, -⟩ := p.check_eq_ok_iff_isFinite.1 hcheck
  obtain ⟨solution, hok, -, hread⟩ : ∃ solution, (twoPhase settings p).outcome = .ok solution ∧ _ :=
    exists_twoPhase hp htol
  refine ⟨⟨_, solution, solve_eq_ok hcheck settings, hok, hread⟩, fun place t h => ?_⟩
  refine ⟨?_, (h.inRange hp htol).sized, h.ready hp htol⟩
  rw [lines, List.length_append, List.length_map, basis, List.length_map]
  rfl

/-- Maximize `x` under `x ≤ 1` and `x ≥ 1`.  The artificial column of the second constraint comes to
zero and stays basic, in a row without a positive entry. -/
def pinned (K : Type) [Scalar K] : LinearProgram K where
  objective := [1]
  rows := [[1], [-1]]
  limits := [1, -1]
  sense := .maximize

/-- In double precision the pinned program has four columns while there is the artificial one, and
its optimum is read off a tableau of the solve. -/
theorem pinned_solve_inRange :
    (pinned Binary64).check = .ok () ∧
    Scalar.ExcludesZero (Settings.standard : Settings Binary64).pivotTol ∧
    (∃ run solution, (pinned Binary64).solve .standard = .ok run ∧ run.outcome = .ok solution ∧
      ReadOff .standard (pinned Binary64) solution) ∧
    (standardForm .standard (pinned Binary64)).tableau.Sized 4 := by
  have hcheck : (pinned Binary64).check = .ok () := by decide +kernel
  have htol : Scalar.ExcludesZero (Settings.standard : Settings Binary64).pivotTol :=
    LawfulScalar.excludesZero (by decide +kernel)
  have heval : (twoPhase .standard (pinned Binary64)).outcome.map (fun s => s.status) =
      .ok .optimal := by
    decide +kernel
  obtain ⟨⟨run, solution, hrun, hout, hread⟩, hreached⟩ := solve_inRange hcheck htol
  obtain rfl : twoPhase .standard (pinned Binary64) = run := Except.ok.inj hrun
  rw [hout] at heval
  exact ⟨hcheck, htol, ⟨_, solution, hrun, hout, hread (Except.ok.inj heval)⟩,
    (hreached .standard _ .standard).2.1⟩

end LinearProgram

end BranchBound
