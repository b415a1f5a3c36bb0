import BranchBound.Proofs.Simplex.Course
import BranchBound.Proofs.Simplex.PivotCount
import BranchBound.Proofs.Wire.RoundTrip

/-!
# Which results of a linear solve come back from their text

A result without an optimal point has a value that is no number (`twoPhase_outcomes`), and a value
that is no number is written as `null` (`realText_of_not_finite`).  The schema of results asks for a
number there, so it does not read such a text: a result comes back exactly if it is optimal and all
its numbers are finite (`LinearProgram.solve_survives_iff`).
-/

namespace BranchBound

open Json

namespace Json

/-! ## Numbers that are not finite -/

/-- A number that is not finite has the highest exponent. -/
theorem signAndMagnitude_of_not_finite {v : Binary64} (h : v.isFinite = false) :
    Decimal.signAndMagnitude v = .nan ∨ ∃ b, Decimal.signAndMagnitude v = .infinite b := by
  have hle : 2047 * 2 ^ 52 ≤ v.bits.toNat % 2 ^ 63 := by
    rw [← Binary64.toNat_magnitudeBits]
    exact UInt64.le_iff_toNat_le.1 (UInt64.not_lt.1 (of_decide_eq_false h))
  have hexponent : v.bits.toNat / 2 ^ 52 % 2 ^ 11 = 2047 := by omega
  have hexponent : v.bits.toNat / Word.bound 52 % Word.bound 11 = 2047 := hexponent
  simp only [Decimal.signAndMagnitude, Decimal.decode, hexponent, if_true]
  split
  · exact .inr ⟨_, rfl⟩
  · exact .inl rfl

/-- **A number that is not finite is written as `null`.** -/
theorem realText_of_not_finite {v : Binary64} (h : v.isFinite = false) : realText v = "null" := by
  obtain hnan | ⟨b, hinfinite⟩ := signAndMagnitude_of_not_finite h
  · rw [realText, Decimal.compact?, hnan]
    rfl
  · rw [realText, Decimal.compact?, hinfinite]
    rfl

theorem document_of_not_finite {v : Binary64} (h : v.isFinite = false) :
    (Value.real v).document = .null := by
  rw [Value.document, realText_of_not_finite h]
  rfl

/-- There is `null` where a number should be. -/
def nullForNumber : ReadError := .misfit (.wrongKind .null "f64")

/-- A number is read as itself if it is finite, and not at all if it is not. -/
theorem decode_real {v : Binary64} (hback : v.isFinite = true → ReadsBack v) :
    Schema.real.decode (Value.real v).document =
      if v.isFinite = true then .ok v else .error nullForNumber := by
  split
  · rename_i hfinite
    exact (Schema.read_eq_ok_iff.1 (hback hfinite)).1
  · rename_i hfinite
    rw [document_of_not_finite (eq_false_of_ne_true hfinite)]
    rfl

/-- Numbers are read as themselves if all of them are finite, and not at all if one is not. -/
theorem decode_reals {vs : List Binary64} (hback : ∀ v ∈ vs, v.isFinite = true → ReadsBack v) :
    (Schema.list .real).decode ((Schema.list .real).encode vs).document =
      if ∀ v ∈ vs, v.isFinite = true then .ok vs else .error nullForNumber := by
  have hitems : (vs.map fun v => (Value.real v).document).mapM Schema.real.decode =
      if ∀ v ∈ vs, v.isFinite = true then .ok vs else .error nullForNumber := by
    induction vs with
    | nil => rfl
    | cons v vs ih =>
        obtain ⟨hv, hvs⟩ := List.forall_mem_cons.1 hback
        rw [List.map_cons, List.mapM_cons, decode_real hv, ih hvs]
        by_cases hfinite : v.isFinite = true
        · simp only [hfinite, List.forall_mem_cons, true_and, if_true]
          split <;> rfl
        · rw [if_neg hfinite]
          exact (if_neg fun h => hfinite (h v List.mem_cons_self)).symm
  show (Schema.list .real).decode (Value.list (vs.map Schema.real.encode)).document = _
  rw [Value.document_list, List.map_map, Schema.decode]
  show ((vs.map fun v => (Value.real v).document).mapM Schema.real.decode >>= _) = _
  rw [hitems]
  split <;> rfl

end Json

/-! ## Results of a linear solve -/

namespace Simplex

open LinearProgram

variable {K : Type} [Scalar K] {settings : Settings K} {p : LinearProgram K}

/-- The second phase ends with an optimal point, without a bound, or at the limit. -/
theorem phaseTwo_outcomes {n pivots : ℕ} {t : Tableau K} {s : Solution K}
    (h : (phaseTwo settings p n t pivots).outcome = .ok s) :
    s.status = .optimal ∨ s = .unbounded p.sense s.pivots ∨ s = .pivotLimit s.pivots := by
  obtain ⟨t', -, h⟩ := Recorded.outcome_bind_eq_ok.1 h
  obtain ⟨⟨stage, ending⟩, -, h⟩ := Recorded.outcome_bind_eq_ok.1 h
  cases ending with
  | optimal =>
      obtain rfl := Except.ok.inj h
      exact .inl rfl
  | unbounded =>
      obtain rfl := Except.ok.inj h
      exact .inr (.inl rfl)
  | pivotLimit =>
      obtain rfl := Except.ok.inj h
      exact .inr (.inr rfl)

/-- **A result that is not optimal consists of its verdict and its count**, and for an unbounded
program of the sense. -/
theorem twoPhase_outcomes {s : Solution K} (h : (twoPhase settings p).outcome = .ok s) :
    s.status = .optimal ∨ s = .infeasible s.pivots ∨ s = .unbounded p.sense s.pivots ∨
      s = .pivotLimit s.pivots := by
  obtain ⟨⟨found, pivots⟩, -, h⟩ := Recorded.outcome_bind_eq_ok.1 h
  cases found with
  | feasible t => exact (phaseTwo_outcomes h).imp_right .inr
  | infeasible =>
      obtain rfl := Except.ok.inj h
      exact .inr (.inl rfl)
  | pivotLimit =>
      obtain rfl := Except.ok.inj h
      exact .inr (.inr (.inr rfl))

end Simplex

namespace LinearProgram

open Simplex

namespace Solution

variable {s : Solution Binary64}

theorem regular_schema : schema.Regular :=
  ⟨by decide, trivial, trivial, trivial, le_rfl, trivial⟩

/-- The numbers of a result. -/
def numbers (s : Solution Binary64) : List Binary64 := s.value :: s.x

/-- All numbers of the result are finite. -/
def IsFinite (s : Solution Binary64) : Prop := ∀ v ∈ s.numbers, v.isFinite = true

instance (s : Solution Binary64) : Decidable s.IsFinite :=
  inferInstanceAs (Decidable (∀ v ∈ s.numbers, v.isFinite = true))

theorem isFinite_iff : s.IsFinite ↔ s.value.isFinite = true ∧ ∀ v ∈ s.x, v.isFinite = true :=
  List.forall_mem_cons

/-- The text of the result is read as a result with the same verdict, point, value and count; an
undefined value may come back as another one. -/
def Survives (s : Solution Binary64) : Prop :=
  ∃ back, schema.read (schema.encode s).compact = .ok back ∧ back.status = s.status ∧
    back.x = s.x ∧ (back.value = s.value ∨ (back.value.isNaN = true ∧ s.value.isNaN = true)) ∧
    back.pivots = s.pivots

section Reading

variable (hpivots : s.pivots < Word.bound 64)
  (hback : ∀ v ∈ s.numbers, v.isFinite = true → ReadsBack v)
include hpivots hback

/-- A result is read as itself if all its numbers are finite; else the first that is not stops the
reading. -/
theorem decode_encode : schema.decode (schema.encode s).document =
    if s.IsFinite then .ok s else .error nullForNumber := by
  obtain ⟨hvalue, hx⟩ := List.forall_mem_cons.1 hback
  have hstatus := Status.schema.decode_encode trivial (x := s.status) trivial
  have hcount := Schema.size.decode_encode le_rfl hpivots
  refine (Schema.decode_record_encode regular_schema.1 s).trans ?_
  show Except.map _ (Fields.ofItems (.need _ Status.schema (.need _ (.list .real)
    (.need _ .real (.need _ Schema.size .nil)))) _ 0 [(Status.schema.encode s.status).document,
      ((Schema.list .real).encode s.x).document, (Value.real s.value).document,
      (Schema.size.encode s.pivots).document] none) = _
  simp only [Fields.need, Fields.ofItems, hstatus, decode_reals hx, decode_real hvalue, hcount,
    isFinite_iff]
  by_cases hpoint : ∀ v ∈ s.x, v.isFinite = true
  · by_cases hnumber : s.value.isFinite = true
    · rw [if_pos hpoint, if_pos hnumber, if_pos ⟨hnumber, hpoint⟩]
      rfl
    · rw [if_pos hpoint, if_neg hnumber]
      exact (if_neg fun h => hnumber h.1).symm
  · rw [if_neg hpoint]
    exact (if_neg fun h => hpoint h.2).symm

/-- **Every text of a result is read as the result or not at all**, by its numbers. -/
theorem read_of_writes {text : String} (h : Writes text (schema.encode s)) :
    schema.read text = if s.IsFinite then .ok s else .error nullForNumber := by
  rw [Schema.read, scan_of_writes h, decode_encode hpivots hback]
  split <;> rfl

theorem survives_iff_isFinite : s.Survives ↔ s.IsFinite := by
  rw [Survives, read_of_writes hpivots hback (writes_compact _)]
  split
  · rename_i hfinite
    exact iff_of_true ⟨s, rfl, rfl, rfl, .inl rfl, rfl⟩ hfinite
  · rename_i hfinite
    refine iff_of_false ?_ hfinite
    rintro ⟨back, hread, -⟩
    cases hread

end Reading

end Solution

variable {settings : Settings Binary64} {p : LinearProgram Binary64}

/-- **Without an optimal point the value is no number.** -/
theorem Solution.value_of_ne_optimal {s : Solution Binary64}
    (h : (twoPhase settings p).outcome = .ok s) (hne : s.status ≠ .optimal) :
    s.x = [] ∧ s.value.isFinite = false := by
  have hundefined : Binary64.nan.isFinite = false := by decide
  have hlimit : ∀ sense : Sense, (sense.limitValue : Binary64).isFinite = false := by
    intro sense
    cases sense <;> decide
  obtain hopt | hs | hs | hs := twoPhase_outcomes h
  · exact absurd hopt hne
  · rw [hs]
    exact ⟨rfl, hundefined⟩
  · rw [hs]
    exact ⟨rfl, hlimit p.sense⟩
  · rw [hs]
    exact ⟨rfl, hundefined⟩

/-- **A result comes back from its text exactly if it is optimal and all its numbers are finite.**
Every sound program is solved, and with a sound tolerance for pivots there is a result.  If the
finite numbers in it read back, every text of it, whatever the layout, is read as the same result
when all its numbers are finite, and else the reading fails at a `null` where a number should be.
The latter is so for every result that is not optimal. -/
theorem solve_survives_iff (hcheck : p.check = .ok ()) (hmax : settings.maxPivots < Word.bound 64) :
    ∃ run, p.solve settings = .ok run ∧
      (Scalar.ExcludesZero settings.pivotTol → ∃ s, run.outcome = .ok s) ∧
      ∀ s, run.outcome = .ok s → (∀ v ∈ s.numbers, v.isFinite = true → ReadsBack v) →
        (s.Survives ↔ s.status = .optimal ∧ s.IsFinite) ∧
        (s.status ≠ .optimal → s.x = [] ∧ realText s.value = "null") ∧
        ∀ text, Writes text (Solution.schema.encode s) →
          Solution.schema.read text = if s.IsFinite then .ok s else .error nullForNumber := by
  obtain ⟨hp, -⟩ := p.check_eq_ok_iff_isFinite.1 hcheck
  refine ⟨_, solve_eq_ok hcheck settings, fun htol => ?_, fun s hs hback => ?_⟩
  · obtain ⟨s, hs, -⟩ := exists_twoPhase hp htol
    exact ⟨s, hs⟩
  · have hpivots : s.pivots < Word.bound 64 := (twoPhase_work hs).2.1.trans_lt hmax
    refine ⟨?_, fun hne => ?_, fun text => Solution.read_of_writes hpivots hback⟩
    · rw [Solution.survives_iff_isFinite hpivots hback]
      refine ⟨fun hfinite => ⟨?_, hfinite⟩, And.right⟩
      by_contra hne
      have hvalue := (Solution.value_of_ne_optimal hs hne).2
      exact absurd (Solution.isFinite_iff.1 hfinite).1 (by simp [hvalue])
    · obtain ⟨hx, hvalue⟩ := Solution.value_of_ne_optimal hs hne
      exact ⟨hx, realText_of_not_finite hvalue⟩

/-- The pinned program has an optimum that comes back.  Under a limit of one pivot there is no
verdict, and the result is lost. -/
theorem pinned_solve_survives_iff :
    (pinned Binary64).check = .ok () ∧
    (∃ run s, (pinned Binary64).solve .standard = .ok run ∧ run.outcome = .ok s ∧ s.Survives) ∧
    ∃ run s, (pinned Binary64).solve (Settings.standard.withMaxPivots 1) = .ok run ∧
      run.outcome = .ok s ∧ s.status = .pivotLimit ∧
      Solution.schema.read (Solution.schema.encode s).compact = .error nullForNumber := by
  have hcheck : (pinned Binary64).check = .ok () := by decide +kernel
  have hone : (twoPhase (Settings.standard.withMaxPivots 1) (pinned Binary64)).outcome =
      .ok (.pivotLimit 1) := by
    decide +kernel
  have htwo : (twoPhase Settings.standard (pinned Binary64)).outcome = .ok (.optimal [1] 1 2) := by
    decide +kernel
  have hread : ReadsBack 1 := readsBack_of_toOption (by decide +kernel)
  refine ⟨hcheck, ?_, ?_⟩
  · obtain ⟨run, hrun, -, hresult⟩ :=
      @solve_survives_iff .standard (pinned Binary64) hcheck (by decide)
    obtain rfl : twoPhase Settings.standard (pinned Binary64) = run := Except.ok.inj hrun
    have hback : ∀ v ∈ (Solution.optimal [1] (1 : Binary64) 2).numbers,
        v.isFinite = true → ReadsBack v := by
      intro v hv _
      obtain rfl : v = 1 := by simpa [Solution.numbers, Solution.optimal] using hv
      exact hread
    exact ⟨_, _, hrun, htwo, (hresult _ htwo hback).1.2 ⟨rfl, by decide +kernel⟩⟩
  · obtain ⟨run, hrun, -, hresult⟩ :=
      @solve_survives_iff (Settings.standard.withMaxPivots 1) (pinned Binary64) hcheck (by decide)
    obtain rfl : twoPhase (Settings.standard.withMaxPivots 1) (pinned Binary64) = run :=
      Except.ok.inj hrun
    have hback : ∀ v ∈ (Solution.pivotLimit 1 : Solution Binary64).numbers,
        v.isFinite = true → ReadsBack v := by
      intro v hv hfinite
      obtain rfl : v = Binary64.nan := List.mem_singleton.1 hv
      exact absurd hfinite (by decide)
    refine ⟨_, _, hrun, hone, rfl, ?_⟩
    rw [(hresult _ hone hback).2.2 _ (writes_compact _), if_neg (by decide +kernel)]

/-- Minimize `x` under `x ≥ 2` and `x ≤ 1`. -/
def apart : LinearProgram Binary64 where
  objective := [1]
  rows := [[-1], [1]]
  limits := [-2, 1]
  sense := .minimize

/-- **A result can be lost on the way through JSON**: no text of an infeasible one is read. -/
theorem apart_solve_lost :
    apart.check = .ok () ∧
    ∃ run s, apart.solve .standard = .ok run ∧ run.outcome = .ok s ∧ s.status = .infeasible ∧
      (∀ v ∈ s.numbers, v.isFinite = true → ReadsBack v) ∧
      (Solution.schema.encode s).compact =
        "\x7b\"status\":\"infeasible\",\"x\":[],\"obj_val\":null,\"iterations\":1\x7d" ∧
      ¬ s.Survives := by
  have hcheck : apart.check = .ok () := by decide +kernel
  have hout : (twoPhase .standard apart).outcome = .ok (.infeasible 1) := by decide +kernel
  have hback : ∀ v ∈ (Solution.infeasible 1 : Solution Binary64).numbers,
      v.isFinite = true → ReadsBack v := by
    intro v hv hfinite
    obtain rfl : v = Binary64.nan := List.mem_singleton.1 hv
    exact absurd hfinite (by decide)
  refine ⟨hcheck, _, _, solve_eq_ok hcheck _, hout, rfl, hback, by decide +kernel, ?_⟩
  rw [Solution.survives_iff_isFinite (by decide) hback]
  decide +kernel

end LinearProgram

end BranchBound
