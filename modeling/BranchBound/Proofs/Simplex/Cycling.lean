import BranchBound.Proofs.Simplex.Steps

/-!
# Runs that never end

The iteration knows nothing but the tableau, and the basis determines the tableau.  So a run that
comes back to a basis goes round for ever, and since there are finitely many bases a run that never
comes back must end (`halts_iff_not_revisits`).  How the iteration with a budget ends is decided by
that: a run that ends is followed to its end by every budget that is large enough
(`iterate_of_halt`), and a run that never ends uses up every budget (`iterate_of_steps`).
-/

namespace BranchBound

variable {K : Type} [ExactScalar K]

namespace Simplex

open Tableau

variable {settings : LinearProgram.Settings K} {candidates : ℕ} {t t' t'' : Tableau K} {k l : ℕ}

/-- The run from this tableau ends: there is no next pivot. -/
def Halts (settings : LinearProgram.Settings K) (candidates : ℕ) (t : Tableau K) : Prop :=
  ∃ k t' ending, Steps settings candidates k t t' ∧
    nextMove settings candidates t' = .ok (.halt ending)

/-- The run from this tableau comes to a basis that it has had before. -/
def Revisits (settings : LinearProgram.Settings K) (candidates : ℕ) (t : Tableau K) : Prop :=
  ∃ k l t' t'', Steps settings candidates k t t' ∧ Steps settings candidates (l + 1) t' t'' ∧
    t''.basis = t'.basis

/-! ## There is only one run -/

theorem Step.deterministic (h : Step settings candidates t t')
    (h' : Step settings candidates t t'') : t' = t'' := by
  obtain ⟨row, col, hmove, hpivot⟩ := h
  obtain ⟨row', col', hmove', hpivot'⟩ := h'
  obtain ⟨rfl, rfl⟩ : row = row' ∧ col = col' := by
    simpa using hmove.symm.trans hmove'
  exact Except.ok.inj (hpivot.symm.trans hpivot')

/-- Where there is a step the run does not end. -/
theorem Step.not_halt (h : Step settings candidates t t') (ending : Ending) :
    nextMove settings candidates t ≠ .ok (.halt ending) := by
  obtain ⟨row, col, hmove, -⟩ := h
  rw [hmove]
  simp

namespace Steps

theorem deterministic (h : Steps settings candidates k t t')
    (h' : Steps settings candidates k t t'') : t' = t'' := by
  induction h with
  | refl t =>
      cases h'
      rfl
  | head first _ ih =>
      cases h' with
      | head first' rest' =>
          obtain rfl := first.deterministic first'
          exact ih rest'

theorem single (h : Step settings candidates t t') : Steps settings candidates 1 t t' :=
  .head h (.refl t')

/-- A run can be cut at any place. -/
theorem split (h : Steps settings candidates (k + l) t t'') :
    ∃ t', Steps settings candidates k t t' ∧ Steps settings candidates l t' t'' := by
  induction k generalizing t with
  | zero =>
      rw [Nat.zero_add] at h
      exact ⟨t, .refl t, h⟩
  | succ k ih =>
      rw [Nat.add_right_comm] at h
      cases h with
      | head first rest =>
          obtain ⟨t', hk, hl⟩ := ih rest
          exact ⟨t', .head first hk, hl⟩

/-- Before its end a run has a next step. -/
theorem exists_step (h : Steps settings candidates l t t'') (hkl : k < l)
    (hk : Steps settings candidates k t t') : ∃ u, Step settings candidates t' u := by
  obtain ⟨m, rfl⟩ := Nat.exists_eq_add_of_lt hkl
  rw [Nat.add_assoc] at h
  obtain ⟨u, hu, hrest⟩ := h.split
  obtain rfl := hk.deterministic hu
  cases hrest with
  | head first _ => exact ⟨_, first⟩

/-- The number of rows does not change along a run. -/
theorem numRows_eq (h : Steps settings candidates k t t') : t'.numRows = t.numRows := by
  induction h with
  | refl t => rfl
  | head first _ ih =>
      obtain ⟨row, col, -, hpivot⟩ := first
      exact ih.trans (numRows_of_pivot_eq_ok hpivot)

/-- Going round any number of times. -/
theorem round (h : Steps settings candidates l t t) (n : ℕ) :
    Steps settings candidates (n * l) t t := by
  induction n with
  | zero =>
      rw [Nat.zero_mul]
      exact .refl t
  | succ n ih =>
      rw [Nat.succ_mul]
      exact ih.trans h

end Steps

/-! ## Budgets -/

/-- **With enough budget the iteration follows a run to its end.** -/
theorem iterate_of_halt {s : Stage K} {ending : Ending}
    (h : Steps settings candidates k s.tableau t')
    (hhalt : nextMove settings candidates t' = .ok (.halt ending)) {budget : ℕ}
    (hk : k ≤ budget) :
    (iterate settings candidates budget s).outcome = .ok (⟨t', s.pivots + k⟩, ending) := by
  induction k generalizing s budget with
  | zero =>
      cases h
      exact iterate_halt budget hhalt
  | succ k ih =>
      obtain ⟨budget, rfl⟩ : ∃ b, budget = b + 1 := ⟨budget - 1, by omega⟩
      cases h with
      | head first rest =>
          rw [iterate_succ budget first, ih (s := ⟨_, s.pivots + 1⟩) rest (by omega)]
          simp only [Nat.add_right_comm s.pivots 1 k, Nat.add_assoc]

/-- **A run that goes on uses up the budget.** -/
theorem iterate_of_steps {s : Stage K} {budget : ℕ}
    (h : Steps settings candidates budget s.tableau t') (hstep : Step settings candidates t' t'') :
    (iterate settings candidates budget s).outcome =
      .ok (⟨t', s.pivots + budget⟩, .pivotLimit) := by
  induction budget generalizing s with
  | zero =>
      cases h
      obtain ⟨row, col, hmove, -⟩ := hstep
      rw [iterate, hmove]
      rfl
  | succ budget ih =>
      cases h with
      | head first rest =>
          rw [iterate_succ budget first, ih (s := ⟨_, s.pivots + 1⟩) rest]
          simp only [Nat.add_right_comm s.pivots 1 budget, Nat.add_assoc]

/-! ## Endless runs -/

/-- A run without end, step by step. -/
def Endless (settings : LinearProgram.Settings K) (candidates : ℕ) (run : ℕ → Tableau K) : Prop :=
  ∀ k, Step settings candidates (run k) (run (k + 1))

namespace Endless

variable {run : ℕ → Tableau K} (h : Endless settings candidates run)
include h

theorem steps (n k : ℕ) : Steps settings candidates k (run n) (run (n + k)) := by
  induction k with
  | zero => exact .refl _
  | succ k ih => exact ih.trans (.single (h (n + k)))

/-- Leaving out the beginning. -/
theorem shift (n : ℕ) : Endless settings candidates fun k => run (n + k) := fun k => h (n + k)

/-- **A run without end comes back to a basis.** -/
theorem exists_basis_eq (hs : settings.IsExact) (ht : (run 0).Proper)
    (hcand : candidates ≤ (run 0).numCols) :
    ∃ i j, i < j ∧ (run j).basis = (run i).basis := by
  have hrun : ∀ k, (run k).Proper ∧ (run 0).Equivalent (run k) := by
    intro k
    have hsteps := h.steps 0 k
    rw [Nat.zero_add] at hsteps
    exact hsteps.proper_equivalent hs ht hcand
  have hlen : ∀ k, (run k).basis.length = (run 0).numRows := by
    intro k
    have hsteps := h.steps 0 k
    rw [Nat.zero_add] at hsteps
    rw [basis, List.length_map]
    exact hsteps.numRows_eq
  have hlt : ∀ k, ∀ b ∈ (run k).basis, b < (run 0).numCols := by
    intro k b hb
    obtain ⟨r, hr, rfl⟩ := List.mem_map.1 hb
    rw [← (hrun k).2.numCols_eq]
    exact (hrun k).1.canonical.basic_lt r hr
  -- a basis is a choice of one column per row, and there are finitely many such choices
  let code : ℕ → Fin (run 0).numRows → Fin (run 0).numCols := fun k i =>
    ⟨(run k).basis.get (i.cast (hlen k).symm), hlt k _ (List.get_mem _ _)⟩
  obtain ⟨i, j, hne, hcode⟩ := Finite.exists_ne_map_eq_of_infinite code
  have hbasis : (run i).basis = (run j).basis := by
    apply List.ext_getElem ((hlen i).trans (hlen j).symm)
    intro n hn _
    have := congrFun hcode ⟨n, by rwa [hlen] at hn⟩
    exact congrArg Fin.val this
  rcases lt_or_gt_of_ne hne with hlt | hgt
  · exact ⟨i, j, hlt, hbasis.symm⟩
  · exact ⟨j, i, hgt, hbasis⟩

end Endless

variable (hs : settings.IsExact) (ht : t.Proper) (hcand : candidates ≤ t.numCols)
include hs ht hcand

/-- A run that does not end goes on for any number of steps. -/
theorem exists_steps_of_not_halts (h : ¬ Halts settings candidates t) (k : ℕ) :
    ∃ t', Steps settings candidates k t t' := by
  induction k with
  | zero => exact ⟨t, .refl t⟩
  | succ k ih =>
      obtain ⟨t', hsteps⟩ := ih
      obtain ⟨hproper, hequiv⟩ := hsteps.proper_equivalent hs ht hcand
      have hcand' : candidates ≤ t'.numCols := hequiv.numCols_eq ▸ hcand
      obtain ⟨move, hok, hmove⟩ := nextMove_spec hs hproper.canonical hcand'
      cases hmove with
      | optimal => exact absurd ⟨k, t', _, hsteps, hok⟩ h
      | unbounded => exact absurd ⟨k, t', _, hsteps, hok⟩ h
      | pivot hent hleave =>
          exact ⟨_, hsteps.trans (.single ((step_iff hs hproper.canonical hcand').2
            ⟨_, _, _, hok, hent, hleave, rfl⟩))⟩

/-- A run that does not end is a run without end. -/
theorem exists_endless_of_not_halts (h : ¬ Halts settings candidates t) :
    ∃ run, run 0 = t ∧ Endless settings candidates run := by
  choose run hrun using exists_steps_of_not_halts hs ht hcand h
  refine ⟨run, ?_, fun k => ?_⟩
  · cases hrun 0
    rfl
  · obtain ⟨u, hstep⟩ := (hrun (k + 1)).exists_step (Nat.lt_succ_self k) (hrun k)
    rwa [(hrun (k + 1)).deterministic ((hrun k).trans (.single hstep))]

/-- Coming back to a basis is coming back to the tableau. -/
theorem steps_self_of_basis_eq (h : Steps settings candidates k t t')
    (hbasis : t'.basis = t.basis) : Steps settings candidates k t t := by
  obtain ⟨hproper, hequiv⟩ := h.proper_equivalent hs ht hcand
  rwa [ht.canonical.eq_of_basis_eq hproper.canonical hequiv hbasis] at h

/-- **A run ends exactly if it never comes back to a basis.** -/
theorem halts_iff_not_revisits :
    Halts settings candidates t ↔ ¬ Revisits settings candidates t := by
  constructor
  · rintro ⟨m, u, ending, hm, hhalt⟩ ⟨k, l, t', t'', hk, hl, hbasis⟩
    obtain ⟨hproper, hequiv⟩ := hk.proper_equivalent hs ht hcand
    have hround := steps_self_of_basis_eq hs hproper (hequiv.numCols_eq ▸ hcand) hl hbasis
    -- going round often enough leads past the end
    have hlong := hk.trans (hround.round (m + 1))
    have hlt : m < k + (m + 1) * (l + 1) := by nlinarith
    obtain ⟨v, hstep⟩ := hlong.exists_step hlt hm
    exact hstep.not_halt ending hhalt
  · intro hrev
    by_contra hno
    obtain ⟨run, rfl, hrun⟩ := exists_endless_of_not_halts hs ht hcand hno
    obtain ⟨i, j, hij, hbasis⟩ := hrun.exists_basis_eq hs ht hcand
    refine hrev ⟨i, j - i - 1, run i, run j, ?_, ?_, hbasis⟩
    · simpa using hrun.steps 0 i
    · have := hrun.steps i (j - i - 1 + 1)
      rwa [show i + (j - i - 1 + 1) = j by omega] at this

end Simplex

end BranchBound
