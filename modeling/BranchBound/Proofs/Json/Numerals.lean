import BranchBound.Json.Numeral
import BranchBound.Json.Scan
import Mathlib.Data.List.Basic
import Mathlib.Data.List.TakeWhile
import Mathlib.Data.Nat.Digits.Defs

/-!
# Numerals as they are written

What is written for a natural number or a double-precision number is a numeral in its usual form
(`Numeral.WellFormed`): without a needless zero in front, and with digits wherever there must be
some.  Taking the text apart gives the parts of the numeral back, whatever stands behind it, as long
as that does not go on with the numeral (`scanValue_numeral`).
-/

namespace BranchBound

namespace Json

/-! ## The text of a numeral -/

/-- There are digits wherever there must be some, and no needless zero in front. -/
structure Numeral.WellFormed (n : Numeral) : Prop where
  whole_digits : ∀ c ∈ n.whole, isDigit c = true
  whole_ne : n.whole ≠ []
  whole_zero : n.whole.head? = some '0' → n.whole = ['0']
  fraction_digits : ∀ c ∈ n.fraction, isDigit c = true
  power_digits : ∀ {negative : Bool} {digits : List Char}, n.power = some (negative, digits) →
    (∀ c ∈ digits, isDigit c = true) ∧ digits ≠ []

/-- The point and the digits behind it. -/
def fractionText (fraction : List Char) : List Char :=
  if fraction = [] then [] else '.' :: fraction

/-- A power of ten with its sign. -/
def powerText : Option (Bool × List Char) → List Char
  | none => []
  | some (negative, digits) => 'e' :: (if negative then '-' else '+') :: digits

namespace Numeral

/-- A numeral without its sign. -/
def magnitudeText (n : Numeral) : List Char :=
  n.whole ++ (fractionText n.fraction ++ powerText n.power)

/-- A numeral with the sign of its power always written. -/
def text (n : Numeral) : List Char :=
  if n.negative then '-' :: n.magnitudeText else n.magnitudeText

end Numeral

/-! ## Taking a numeral apart -/

/-- What stands behind a numeral does not go on with it. -/
def EndsNumeral (rest : List Char) : Prop :=
  ∀ c ∈ rest.head?, isDigit c = false ∧ c ≠ '.' ∧ c ≠ 'e' ∧ c ≠ 'E'

section Digits

variable {digits rest : List Char} (hdigits : ∀ c ∈ digits, isDigit c = true)
  (hrest : ∀ c ∈ rest.head?, isDigit c = false)
include hdigits hrest

theorem takeWhile_isDigit : (digits ++ rest).takeWhile isDigit = digits := by
  rw [List.takeWhile_append_of_pos hdigits]
  cases rest with
  | nil => simp
  | cons c rest => simp [hrest c rfl]

theorem dropWhile_isDigit : (digits ++ rest).dropWhile isDigit = rest := by
  rw [List.dropWhile_append_of_pos hdigits]
  cases rest with
  | nil => simp
  | cons c rest => simp [hrest c rfl]

end Digits

/-- The power of ten of a numeral, and nothing behind it. -/
theorem scanPower_powerText {n : Numeral} (hn : n.WellFormed) {rest : List Char}
    (hrest : EndsNumeral rest) :
    scanPower { n with power := none } (powerText n.power ++ rest) = (.number n, rest) := by
  obtain ⟨negative, whole, fraction, power⟩ := n
  cases power with
  | none =>
      cases rest with
      | nil => rfl
      | cons c rest =>
          obtain ⟨-, -, he, hE⟩ := hrest c rfl
          simp [powerText, scanPower, he, hE]
  | some power =>
      obtain ⟨powerNegative, digits⟩ := power
      obtain ⟨hdigits, hne⟩ := hn.power_digits rfl
      have hend : ∀ c ∈ rest.head?, isDigit c = false := fun c hc => (hrest c hc).1
      cases powerNegative <;>
        simp [powerText, scanPower, takeWhile_isDigit hdigits hend,
          dropWhile_isDigit hdigits hend, hne]

namespace EndsNumeral

variable {rest : List Char} (hrest : EndsNumeral rest)
include hrest

/-- What follows the digits behind the point is neither a digit nor another point. -/
theorem powerText (power : Option (Bool × List Char)) :
    ∀ c ∈ (powerText power ++ rest).head?, isDigit c = false ∧ c ≠ '.' := by
  intro c hc
  cases power with
  | none => exact ⟨(hrest c hc).1, (hrest c hc).2.1⟩
  | some power =>
      obtain rfl : 'e' = c := Option.some.inj hc
      decide

/-- What follows the digits before the point is no digit. -/
theorem fractionText (fraction : List Char) (power : Option (Bool × List Char)) :
    ∀ c ∈ (fractionText fraction ++ (Json.powerText power ++ rest)).head?, isDigit c = false := by
  intro c hc
  rw [Json.fractionText] at hc
  split at hc
  · exact (hrest.powerText power c hc).1
  · obtain rfl : '.' = c := Option.some.inj hc
    decide

end EndsNumeral

/-- The fraction and the power of a numeral, and nothing behind them. -/
theorem scanFraction_fractionText {n : Numeral} (hn : n.WellFormed) {rest : List Char}
    (hrest : EndsNumeral rest) :
    scanFraction { n with fraction := [], power := none }
      (fractionText n.fraction ++ (powerText n.power ++ rest)) = (.number n, rest) := by
  have hpower := scanPower_powerText hn hrest
  have hend := hrest.powerText n.power
  by_cases hfraction : n.fraction = []
  · rw [fractionText, if_pos hfraction, List.nil_append, scanFraction]
    · rw [← hfraction]
      exact hpower
    · intro tail htail
      rw [htail] at hend
      exact (hend '.' rfl).2 rfl
  · rw [fractionText, if_neg hfraction, List.cons_append, scanFraction]
    have hdigit : ∀ c ∈ (powerText n.power ++ rest).head?, isDigit c = false :=
      fun c hc => (hend c hc).1
    simp only [takeWhile_isDigit hn.fraction_digits hdigit,
      dropWhile_isDigit hn.fraction_digits hdigit]
    rw [if_neg (by simpa using hfraction)]
    exact hpower

/-- **Taking a numeral apart gives its parts back.** -/
theorem scanNumeral_magnitudeText {n : Numeral} (hn : n.WellFormed) {rest : List Char}
    (hrest : EndsNumeral rest) :
    scanNumeral n.negative (n.magnitudeText ++ rest) = (.number n, rest) := by
  have hdigit := hrest.fractionText n.fraction n.power
  rw [scanNumeral, Numeral.magnitudeText, List.append_assoc, List.append_assoc,
    takeWhile_isDigit hn.whole_digits hdigit, dropWhile_isDigit hn.whole_digits hdigit]
  split
  · exact absurd ‹n.whole = []› hn.whole_ne
  · obtain hwhole : n.whole = '0' :: _ := ‹_›
    have hzero := hn.whole_zero (by rw [hwhole]; rfl)
    rw [hwhole] at hzero
    simp at hzero
  · exact scanFraction_fractionText hn hrest

/-- The text of a numeral starts with a minus sign or a digit. -/
theorem Numeral.WellFormed.exists_text_eq_cons {n : Numeral} (hn : n.WellFormed) :
    ∃ c cs, n.text = c :: cs ∧ (c = '-' ∨ isDigit c = true) := by
  cases hwhole : n.whole with
  | nil => exact absurd hwhole hn.whole_ne
  | cons c cs =>
      rw [Numeral.text, Numeral.magnitudeText, hwhole]
      split
      · exact ⟨'-', _, rfl, .inl rfl⟩
      · exact ⟨c, _, rfl, .inr (hn.whole_digits c (hwhole ▸ List.mem_cons_self))⟩

/-- A digit starts a numeral without a sign. -/
theorem scanValue_of_isDigit {c : Char} (hc : isDigit c = true) (budget : ℕ) {cs tail : List Char}
    (hcs : skipBlanks cs = c :: tail) :
    scanValue (budget + 1) cs = scanNumeral false (c :: tail) := by
  rw [scanValue, hcs]
  split <;> simp_all [isDigit]

/-- **A numeral in a text is taken apart into its parts.** -/
theorem scanValue_text {n : Numeral} (hn : n.WellFormed) {cs rest : List Char} (budget : ℕ)
    (hcs : skipBlanks cs = n.text ++ rest) (hrest : EndsNumeral rest) :
    scanValue (budget + 1) cs = (.number n, rest) := by
  have hscan := scanNumeral_magnitudeText hn hrest
  cases hneg : n.negative with
  | true =>
      rw [Numeral.text, if_pos hneg] at hcs
      rw [scanValue, hcs, ← hscan, hneg]
      rfl
  | false =>
      rw [Numeral.text, if_neg (by simp [hneg])] at hcs
      cases hwhole : n.whole with
      | nil => exact absurd hwhole hn.whole_ne
      | cons c tail =>
          rw [hneg] at hscan
          rw [Numeral.magnitudeText, hwhole] at hcs hscan
          rw [scanValue_of_isDigit (hn.whole_digits c (hwhole ▸ List.mem_cons_self)) _ hcs]
          exact hscan

/-! ## Naturals -/

theorem isDigit_of_mem_toDigits {n : ℕ} {c : Char} (hc : c ∈ Nat.toDigits 10 n) :
    isDigit c = true := by
  have h := Nat.isDigit_of_mem_toDigits (by omega) le_rfl hc
  simpa [isDigit, Char.isDigit, Char.le_def] using h

/-- Only zero starts with a zero. -/
theorem head_toDigits_ne_zero {n : ℕ} (hn : n ≠ 0) : (Nat.toDigits 10 n).head? ≠ some '0' := by
  induction n using Nat.strongRecOn with
  | ind n ih =>
      rw [Nat.toDigits_eq_if (by omega)]
      split
      · simpa [Nat.digitChar_eq_zero] using hn
      · rw [List.head?_append_of_ne_nil _ Nat.toDigits_ne_nil]
        exact ih (n / 10) (by omega) (by omega)

/-- A natural number as a numeral. -/
def naturalNumeral (n : ℕ) : Numeral := ⟨false, Nat.toDigits 10 n, [], none⟩

theorem naturalNumeral_wellFormed (n : ℕ) : (naturalNumeral n).WellFormed where
  whole_digits _ hc := isDigit_of_mem_toDigits hc
  whole_ne := Nat.toDigits_ne_nil
  whole_zero h := by
    obtain rfl : n = 0 := by
      by_contra hn
      exact head_toDigits_ne_zero hn h
    exact Nat.toDigits_zero 10
  fraction_digits := by simp [naturalNumeral]
  power_digits := by simp [naturalNumeral]

theorem toList_toString (n : ℕ) : (toString n).toList = Nat.toDigits 10 n := by
  rw [Nat.toString_eq_ofList_toDigits, String.toList_ofList]

theorem text_naturalNumeral (n : ℕ) : (naturalNumeral n).text = (toString n).toList := by
  rw [toList_toString]
  simp [Numeral.text, Numeral.magnitudeText, naturalNumeral, fractionText, powerText]

/-- **A natural number of 64 bits is read back.** -/
theorem value?_naturalNumeral {n : ℕ} (hn : n < Word.bound 64) :
    (naturalNumeral n).value? = some (.natural n) := by
  have hspell : spell 0 (Nat.toDigits 10 n) = n := by
    have h := Nat.ofDigitChars_ten_toDigits (n := n)
    rw [Nat.ofDigitChars_eq_foldl] at h
    simpa only [spell, digitValue, mul_comm 10] using h
  simp only [Numeral.value?, naturalNumeral, hspell, if_neg (not_le.2 hn)]
  rfl

end Json

/-! ## Double-precision numbers -/

namespace Decimal

/-- Zero does not read back as a number that is not zero. -/
theorem contains_zero {v : Magnitude} (hv : v.mantissa ≠ 0) (unit : ℤ) :
    (Interval.around v).contains 0 unit = false := by
  have hlow : 0 < ((Interval.around v).low.inUnits unit).1 := by
    simp only [Interval.around, Magnitude.inUnits]
    refine Nat.mul_pos (Nat.mul_pos ?_ (Nat.pow_pos (by omega))) (Nat.pow_pos (by omega))
    split <;> omega
  simp only [Interval.contains, zero_mul]
  split <;> (rw [decide_eq_false_iff_not]; omega)

/-- Of the two neighbours only the lower one can be zero, and that does not read back. -/
theorem neighbour?_ne_zero {tie : Tie} {v : Magnitude} (hv : v.mantissa ≠ 0) {unit : ℤ} {c : ℕ}
    (h : neighbour? tie v unit = some c) : c ≠ 0 := by
  have hlow : c = (v.inUnits unit).1 / (v.inUnits unit).2 →
      (Interval.around v).contains c unit = true := by
    rintro rfl
    by_contra hnot
    simp only [neighbour?, Bool.eq_false_iff.2 hnot] at h
    split at h <;> simp_all
  rintro rfl
  refine absurd (hlow ?_) (by simp [contains_zero hv])
  simp only [neighbour?] at h
  split at h <;> grind

/-- Only the number zero is written with the digit zero alone. -/
theorem shortest_digits {tie : Tie} {v : Magnitude} (hv : v.mantissa ≠ 0)
    (hzero : (shortest tie v).digits = 0) : (shortest tie v).exponent = 0 := by
  rw [shortest] at hzero ⊢
  cases hfind : (List.range' 1 17).findSome? fun k : ℕ =>
      (neighbour? tie v (v.leading - k + 1)).map fun c => carry k c (v.leading - k + 1) with
  | none => rfl
  | some d =>
      rw [hfind] at hzero
      obtain ⟨k, -, hk⟩ := List.exists_of_findSome?_eq_some hfind
      obtain ⟨c, hc, rfl⟩ := Option.map_eq_some_iff.1 hk
      refine absurd hzero ?_
      rw [Option.getD_some, carry]
      split
      · exact one_ne_zero
      · exact neighbour?_ne_zero hv hc

/-- The text without its sign is a numeral in its usual form. -/
def IsMagnitude (text : String) : Prop :=
  ∃ n : Json.Numeral, n.WellFormed ∧ n.magnitudeText = text.toList

/-- A sign in front of a magnitude makes a numeral. -/
theorem IsMagnitude.signed {text : String} (h : IsMagnitude text) (negative : Bool) :
    ∃ n : Json.Numeral, n.WellFormed ∧ (signed negative text).toList = n.text := by
  obtain ⟨n, hn, htext⟩ := h
  refine ⟨{ n with negative := negative }, ⟨hn.whole_digits, hn.whole_ne, hn.whole_zero,
    hn.fraction_digits, hn.power_digits⟩, ?_⟩
  rw [Json.Numeral.text]
  show _ = if negative = true then '-' :: n.magnitudeText else n.magnitudeText
  rw [htext, Decimal.signed]
  split
  · rw [String.toList_append]
    rfl
  · rfl

/-- Digits before a point and behind it are a numeral, if no needless zero is in front. -/
theorem isMagnitude_point {text : String} (whole fraction : List Char)
    (htext : text.toList = whole ++ '.' :: fraction)
    (hwhole : ∀ c ∈ whole, Json.isDigit c = true) (hne : whole ≠ [])
    (hzero : whole.head? = some '0' → whole = ['0'])
    (hfraction : ∀ c ∈ fraction, Json.isDigit c = true) (hne' : fraction ≠ []) :
    IsMagnitude text := by
  refine ⟨⟨false, whole, fraction, none⟩, ⟨hwhole, hne, hzero, hfraction, by simp⟩, ?_⟩
  simp [Json.Numeral.magnitudeText, Json.fractionText, Json.powerText, hne', htext]

theorem isDigit_of_mem_zeros {k : ℕ} {c : Char} (hc : c ∈ List.replicate k '0') :
    Json.isDigit c = true := by
  obtain rfl := List.eq_of_mem_replicate hc
  decide

theorem length_toString (n : ℕ) : (toString n).length = (Nat.toDigits 10 n).length := by
  rw [← String.length_toList, Json.toList_toString]

/-- **A decimal in positional notation is a numeral.** -/
theorem isMagnitude_positional {d : Digits} (hd : d.digits = 0 → d.exponent = 0) :
    IsMagnitude (positional ".0" d) := by
  have hdigit : ∀ c ∈ Nat.toDigits 10 d.digits, Json.isDigit c = true := fun c hc =>
    Json.isDigit_of_mem_toDigits hc
  rw [positional]
  simp only [length_toString]
  split
  case isTrue hexp =>
    -- zeros stand in for the power of ten
    refine isMagnitude_point (Nat.toDigits 10 d.digits ++ List.replicate d.exponent.toNat '0') ['0']
      ?_ ?_ ?_ ?_ (List.forall_mem_singleton.2 rfl) (by simp)
    · simp [zeros]
    · exact List.forall_mem_append.2 ⟨hdigit, fun c hc => isDigit_of_mem_zeros hc⟩
    · simp [Nat.toDigits_ne_nil]
    · intro hhead
      rw [List.head?_append_of_ne_nil _ Nat.toDigits_ne_nil] at hhead
      obtain hzero : d.digits = 0 := by
        by_contra hne
        exact Json.head_toDigits_ne_zero hne hhead
      rw [hzero, hd hzero]
      rfl
  case isFalse hexp =>
    have hne : d.digits ≠ 0 := fun hzero => hexp (hd hzero).ge
    split
    case isTrue hplace =>
      -- the point stands among the digits
      refine isMagnitude_point
        ((Nat.toDigits 10 d.digits).take
          ((Nat.toDigits 10 d.digits).length + d.exponent).toNat)
        ((Nat.toDigits 10 d.digits).drop
          ((Nat.toDigits 10 d.digits).length + d.exponent).toNat) ?_ ?_ ?_ ?_ ?_ ?_
      · simp [pointAt]
      · exact fun c hc => hdigit c (List.mem_of_mem_take hc)
      · simp [Nat.toDigits_ne_nil]
        omega
      · intro hhead
        rw [List.head?_take, if_neg (by omega)] at hhead
        exact absurd hhead (Json.head_toDigits_ne_zero hne)
      · exact fun c hc => hdigit c (List.mem_of_mem_drop hc)
      · simp only [ne_eq, List.drop_eq_nil_iff]
        omega
    case isFalse hplace =>
      -- zeros stand between the point and the digits
      refine isMagnitude_point ['0']
        (List.replicate (-((Nat.toDigits 10 d.digits).length + d.exponent)).toNat '0' ++
          Nat.toDigits 10 d.digits) ?_ (List.forall_mem_singleton.2 rfl) (by simp) (by simp) ?_ ?_
      · simp [zeros]
      · exact List.forall_mem_append.2 ⟨fun c hc => isDigit_of_mem_zeros hc, hdigit⟩
      · simp [Nat.toDigits_ne_nil]

theorem toList_powerText (e : ℤ) :
    (powerText e).toList = (if e < 0 then '-' else '+') :: Nat.toDigits 10 e.natAbs := by
  cases e with
  | ofNat k =>
      have hneg : ¬ Int.ofNat k < 0 := by simp
      rw [powerText, if_neg hneg, if_neg hneg, String.toList_append]
      exact congrArg ('+' :: ·) (Json.toList_toString k)
  | negSucc k =>
      have hneg : Int.negSucc k < 0 := Int.negSucc_lt_zero k
      rw [powerText, if_pos hneg, if_pos hneg]
      show ("-" ++ toString (k + 1)).toList = _
      rw [String.toList_append, Json.toList_toString]
      rfl

/-- **A digit, further digits behind a point, and a power of ten are a numeral.** -/
theorem isMagnitude_scientific (digits : ℕ) (power : ℤ) :
    IsMagnitude ((if (toString digits).length = 1 then toString digits
      else pointAt 1 (toString digits)) ++ "e" ++ powerText power) := by
  have hdigit : ∀ c ∈ Nat.toDigits 10 digits, Json.isDigit c = true := fun c hc =>
    Json.isDigit_of_mem_toDigits hc
  refine ⟨⟨false, (Nat.toDigits 10 digits).take 1, (Nat.toDigits 10 digits).drop 1,
    some (decide (power < 0), Nat.toDigits 10 power.natAbs)⟩, ⟨?_, ?_, ?_, ?_, ?_⟩, ?_⟩
  · exact fun c hc => hdigit c (List.mem_of_mem_take hc)
  · simp [Nat.toDigits_ne_nil]
  · cases h : Nat.toDigits 10 digits <;> simp
  · exact fun c hc => hdigit c (List.mem_of_mem_drop hc)
  · rintro negative ds ⟨⟩
    exact ⟨fun c hc => Json.isDigit_of_mem_toDigits hc, Nat.toDigits_ne_nil⟩
  · rw [Json.Numeral.magnitudeText, String.toList_append, String.toList_append, toList_powerText,
      length_toString]
    split
    case isTrue hone =>
      obtain ⟨c, hc⟩ := List.length_eq_one_iff.1 hone
      simp [Json.fractionText, Json.powerText, hc]
    case isFalse hone =>
      have hmore : (Nat.toDigits 10 digits).tail ≠ [] := by
        have := Nat.length_toDigits_pos (b := 10) (n := digits)
        simp only [ne_eq, ← List.drop_one, List.drop_eq_nil_iff]
        omega
      simp [Json.fractionText, Json.powerText, hmore, pointAt]

/-- **A number that is written at all is written as a numeral.** -/
theorem exists_numeral_compact? {v : Binary64} {text : String} (h : compact? v = some text) :
    ∃ n : Json.Numeral, n.WellFormed ∧ text.toList = n.text := by
  rw [compact?] at h
  split at h
  · cases h
  · cases h
  · split at h
    case isTrue hzero =>
      obtain rfl := Option.some.inj h
      have hdigit : ∀ c ∈ ['0'], Json.isDigit c = true := List.forall_mem_singleton.2 rfl
      exact (isMagnitude_point ['0'] ['0'] rfl hdigit (by simp) (by simp) hdigit (by simp)).signed _
    case isFalse hne =>
      simp only at h
      split at h
      · obtain rfl := Option.some.inj h
        exact (isMagnitude_positional (shortest_digits hne)).signed _
      · obtain rfl := Option.some.inj h
        exact (isMagnitude_scientific _ _).signed _

end Decimal

end BranchBound
