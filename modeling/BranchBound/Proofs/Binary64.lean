import Mathlib
import BranchBound.Scalar.Binary64

/-!
# Comparison of double-precision numbers

An undefined value is not below any value, and no value is below it.  The other values have places
on a line (`place`), and one is below another exactly if its place is (`lt_iff_place`).  So `<` is
transitive on all double-precision numbers, undefined ones included.

What a number stands for is read off its word of 64 bits (`Reads`, `reads`): apart from the sign the
word counts the steps from zero (`level`).  So what is below also comes before in the total order,
which compares words (`position_lt`), and what lies above a tolerance is not zero
(`isZero_eq_false_of_lt`).
-/

namespace BranchBound

namespace Binary64

open Float.Model Float.Model.UnpackedFloat

/-- Place of a value on the line: first its sign and class, then exponent and significand. -/
def place : UnpackedFloat → ℤ ×ₗ ℤ ×ₗ ℤ
  | .infinity .negative => toLex (-2, toLex (0, 0))
  | .finite .negative m e _ => toLex (-1, toLex (-e, -m))
  | .notANumber | .zero _ => toLex (0, toLex (0, 0))
  | .finite .positive m e _ => toLex (1, toLex (e, m))
  | .infinity .positive => toLex (2, toLex (0, 0))

/-- Comparing signs, exponents and significands compares places. -/
theorem lt_iff_place {a b : UnpackedFloat} :
    a.lt b = true ↔ a ≠ .notANumber ∧ b ≠ .notANumber ∧ place a < place b := by
  have hsign : compare UnpackedFloat.Sign.negative UnpackedFloat.Sign.positive = .lt := rfl
  unfold UnpackedFloat.lt
  rcases a with (_ | _) | _ | (_ | _) | ⟨_ | _, m, e, hm⟩ <;>
    rcases b with (_ | _) | _ | (_ | _) | ⟨_ | _, m', e', hm'⟩ <;>
    simp [UnpackedFloat.compare, place, Prod.Lex.toLex_lt_toLex, hsign, Ordering.then_eq_lt,
      Ordering.then_eq_gt, compare_lt_iff_lt, compare_gt_iff_gt]

/-- **Comparison is transitive**, whatever the values. -/
instance : IsTrans Binary64 (· < ·) where
  trans a b c hab hbc := by
    obtain ⟨ha, -, hab⟩ := lt_iff_place.1 (of_decide_eq_true hab)
    obtain ⟨-, hc, hbc⟩ := lt_iff_place.1 (of_decide_eq_true hbc)
    exact decide_eq_true (lt_iff_place.2 ⟨ha, hc, hab.trans hbc⟩)

/-! ## Words of 64 bits -/

/-- A fraction with the leading one. -/
theorem toNat_append_one (m : BitVec 52) : (1#1 ++ m).toNat = 2 ^ 52 + m.toNat := by
  rw [BitVec.toNat_append, ← Nat.shiftLeft_add_eq_or_of_lt m.isLt]
  rfl

/-- A fraction that is not zero is positive. -/
theorem toNat_pos {m : BitVec 52} (h : m ≠ 0#52) : 0 < m.toNat :=
  Nat.pos_of_ne_zero fun hzero => h (BitVec.eq_of_toNat_eq hzero)

/-- The value with these three parts. -/
def assemble (s : Sign) (e : BitVec 11) (m : BitVec 52) : UnpackedFloat :=
  if e = -1#11 then if m = 0#52 then .infinity s else .notANumber
  else if e = 0#11 then
    if h : m = 0#52 then .zero s else .finite s m.toNat (e.toNat - 1075 + 1) (toNat_pos h)
  else .finite s (1#1 ++ m).toNat (e.toNat - 1075)
    (by rw [toNat_append_one]; exact Nat.add_pos_left (by decide) _)

/-- Unpacking cuts a word into the three parts and puts them together. -/
theorem unpack_eq_assemble (b : BitVec 64) :
    UnpackedFloat.unpack .binary64 b = assemble (.ofBitVec (@unpackSign .binary64 b))
      (@unpackExponent .binary64 b) (@unpackMantissa .binary64 b) := rfl

/-- The sign that was packed. -/
theorem unpackSign_packComponents (s : Sign) (e : BitVec 11) (m : BitVec 52) :
    Sign.ofBitVec (@unpackSign .binary64 (packComponents .binary64 s e m)) = s := by
  have hsign : @unpackSign .binary64 (packComponents .binary64 s e m) = s.toBitVec := by
    apply BitVec.eq_of_getLsbD_eq
    intro i hi
    obtain rfl : i = 0 := by omega
    show ((s.toBitVec ++ e ++ m).extractLsb 63 63).getLsbD 0 = s.toBitVec.getLsbD 0
    rw [BitVec.getLsbD_extractLsb, BitVec.getLsbD_append, BitVec.getLsbD_append]
    simp
  rw [hsign]
  cases s <;> rfl

/-- Unpacking the word of three parts puts them together. -/
theorem unpack_packComponents (s : Sign) (e : BitVec 11) (m : BitVec 52) :
    UnpackedFloat.unpack .binary64 (packComponents .binary64 s e m) = assemble s e m := by
  rw [unpack_eq_assemble, unpackExponent_packComponents, unpackMantissa_packComponents,
    unpackSign_packComponents]

/-- How a number is packed: with its exponent if it has the leading one, and with the lowest if it
has not. -/
theorem pack_finite (s : Sign) {m : ℕ} {e : ℤ} (hm : 0 < m) {k : ℕ} (hk : e + 1075 = k)
    (hlt : k < 2047) :
    UnpackedFloat.pack .binary64 (.finite s m e hm) =
      if m.log2 = 52 then packComponents .binary64 s (BitVec.ofNat 11 k) (BitVec.ofNat 52 m)
      else packComponents .binary64 s 0#11 (BitVec.ofNat 52 m) := by
  have hbiased : (e + (Format.binary64.exponentBias : ℤ) + 52).toNat = k := by
    have hbias : (Format.binary64.exponentBias : ℤ) = 1023 := rfl
    omega
  show (if 2 ^ 11 ≤ (e + (Format.binary64.exponentBias : ℤ) + 52).toNat + 1 then _
    else if m.log2 + 1 = 53 then packComponents .binary64 s
      (BitVec.ofNat 11 (e + (Format.binary64.exponentBias : ℤ) + 52).toNat) _ else _) = _
  rw [hbiased, if_neg (by omega)]
  by_cases hlog : m.log2 = 52
  · rw [if_pos (by omega), if_pos hlog]
  · rw [if_neg (by omega), if_neg hlog]

/-- **Packing gives back the three parts** of every defined value. -/
theorem pack_assemble (s : Sign) (e : BitVec 11) (m : BitVec 52)
    (h : assemble s e m ≠ .notANumber) :
    UnpackedFloat.pack .binary64 (assemble s e m) = packComponents .binary64 s e m := by
  have hself : BitVec.ofNat 52 m.toNat = m := by simp
  unfold assemble at h ⊢
  split
  · rename_i he
    split
    · rename_i hm
      rw [he, hm]
      rfl
    · rename_i hm
      rw [if_pos he, if_neg hm] at h
      exact absurd rfl h
  · rename_i he
    split
    · rename_i he'
      split
      · rename_i hm
        rw [he', hm]
        rfl
      · rename_i hm
        have hlog : m.toNat.log2 < 52 := (Nat.log2_lt (toNat_pos hm).ne').2 m.isLt
        rw [pack_finite s (toNat_pos hm) (k := 1) (by rw [he']; rfl) (by decide), if_neg hlog.ne,
          hself, he']
    · rename_i he'
      have hlog : (1#1 ++ m).toNat.log2 = 52 := by
        have hm := m.isLt
        rw [toNat_append_one]
        exact (Nat.log2_eq_iff (by omega)).2 ⟨by omega, by omega⟩
      have hmantissa : BitVec.ofNat 52 (1#1 ++ m).toNat = m := by
        rw [toNat_append_one]
        apply BitVec.eq_of_toNat_eq
        rw [BitVec.toNat_ofNat, Nat.add_mod_left, Nat.mod_eq_of_lt m.isLt]
      have hlt : e.toNat < 2047 := by
        have hne : e.toNat ≠ 2047 := fun heq => he (BitVec.eq_of_toNat_eq heq)
        have := e.isLt
        omega
      rw [pack_finite s _ (k := e.toNat) (by omega) hlt, if_pos hlog, hmantissa]
      congr 1
      simp

/-- The bits of a defined value lose nothing on the way to a number. -/
theorem unpack_toFloat (v : Binary64) :
    v.toFloat.toModel.unpack = UnpackedFloat.unpack .binary64 v.bits.toBitVec := by
  have hround : v.toFloat.toModel.unpack = UnpackedFloat.unpack .binary64
      (UnpackedFloat.pack .binary64 (UnpackedFloat.unpack .binary64 v.bits.toBitVec)) := rfl
  rw [hround, unpack_eq_assemble v.bits.toBitVec]
  by_cases h : assemble (.ofBitVec (@unpackSign .binary64 v.bits.toBitVec))
      (@unpackExponent .binary64 v.bits.toBitVec)
      (@unpackMantissa .binary64 v.bits.toBitVec) = .notANumber
  · rw [h]
    rfl
  · rw [pack_assemble _ _ _ h, unpack_packComponents]

/-- The bit of the sign in place. -/
def signOffset : Sign → ℕ
  | .negative => 2 ^ 63
  | .positive => 0

/-- The word of 64 bits stands for the value. -/
inductive Reads (w : ℕ) : UnpackedFloat → Prop where
  /-- The exponent is the highest and the fraction zero. -/
  | infinity {s : Sign} (hw : w = signOffset s + 2047 * 2 ^ 52) : Reads w (.infinity s)
  /-- The exponent is the highest and the fraction not zero. -/
  | notANumber {s : Sign} {f : ℕ} (hw : w = signOffset s + 2047 * 2 ^ 52 + f) (hpos : 0 < f)
      (hlt : f < 2 ^ 52) : Reads w .notANumber
  /-- There is only a sign. -/
  | zero {s : Sign} (hw : w = signOffset s) : Reads w (.zero s)
  /-- Exponent and significand in one, counted from the smallest number. -/
  | finite {s : Sign} {m : ℕ} {e : ℤ} (hm : 0 < m) {k : ℕ} (he : e = k - 1074) (hk : k < 2046)
      (hlt : m < 2 ^ 53) (hnormal : k = 0 ∨ 2 ^ 52 ≤ m)
      (hw : w = signOffset s + k * 2 ^ 52 + m) : Reads w (.finite s m e hm)

/-- The word of three parts stands for what they are put together to. -/
theorem reads_assemble (s : Sign) (e : BitVec 11) (m : BitVec 52) :
    Reads (signOffset s + e.toNat * 2 ^ 52 + m.toNat) (assemble s e m) := by
  unfold assemble
  split
  · rename_i he
    have he : e.toNat = 2047 := by rw [he]; rfl
    split
    · rename_i hm
      have hm : m.toNat = 0 := by rw [hm]; rfl
      exact .infinity (by omega)
    · rename_i hm
      have := toNat_pos hm
      exact .notANumber (s := s) (f := m.toNat) (by omega) this m.isLt
  · rename_i he
    split
    · rename_i he'
      have he' : e.toNat = 0 := by rw [he']; rfl
      split
      · rename_i hm
        have hm : m.toNat = 0 := by rw [hm]; rfl
        exact .zero (by omega)
      · rename_i hm
        have hm := m.isLt
        exact .finite _ (k := 0) (by omega) (by decide) (by omega) (.inl rfl) (by omega)
    · rename_i he'
      have hne : e.toNat ≠ 2047 := fun heq => he (BitVec.eq_of_toNat_eq heq)
      have hne' : e.toNat ≠ 0 := fun heq => he' (BitVec.eq_of_toNat_eq heq)
      have hm := toNat_append_one m
      have := e.isLt
      exact .finite _ (k := e.toNat - 1) (by omega) (by omega) (by omega) (.inr (by omega))
        (by omega)

/-- A word of 64 bits is made up of its three parts. -/
theorem toNat_eq_parts (w : BitVec 64) :
    w.toNat = signOffset (.ofBitVec (@unpackSign .binary64 w)) +
      (@unpackExponent .binary64 w).toNat * 2 ^ 52 + (@unpackMantissa .binary64 w).toNat := by
  have hlt := w.isLt
  have hmantissa : (@unpackMantissa .binary64 w).toNat = w.toNat % 2 ^ 52 := by
    show (w.extractLsb 51 0).toNat = _
    simp [BitVec.extractLsb_toNat]
  have hexponent : (@unpackExponent .binary64 w).toNat = w.toNat / 2 ^ 52 % 2 ^ 11 := by
    show (w.extractLsb 62 52).toNat = _
    simp [BitVec.extractLsb_toNat, Nat.shiftRight_eq_div_pow]
  have hbit : (@unpackSign .binary64 w).toNat = w.toNat / 2 ^ 63 := by
    show (w.extractLsb 63 63).toNat = _
    simp [BitVec.extractLsb_toNat, Nat.shiftRight_eq_div_pow]
    omega
  have hsign : signOffset (.ofBitVec (@unpackSign .binary64 w)) = w.toNat / 2 ^ 63 * 2 ^ 63 := by
    unfold Sign.ofBitVec
    split
    · rename_i hzero
      rw [hzero] at hbit
      show 0 = _
      rw [← hbit]
      rfl
    · rename_i hone
      have hne : (@unpackSign .binary64 w).toNat ≠ 0 :=
        fun heq => hone (BitVec.eq_of_toNat_eq heq)
      show 2 ^ 63 = _
      omega
  omega

/-- **What the bits of a double-precision number stand for.** -/
theorem reads (v : Binary64) : Reads v.bits.toNat v.toFloat.toModel.unpack := by
  rw [unpack_toFloat, unpack_eq_assemble, ← UInt64.toNat_toBitVec, toNat_eq_parts]
  exact reads_assemble _ _ _

/-! ## Levels -/

/-- The distance from zero in steps between neighbouring numbers, negative below zero. -/
def level : UnpackedFloat → ℤ
  | .infinity s => s.apply (2047 * 2 ^ 52)
  | .notANumber | .zero _ => 0
  | .finite s m e _ => s.apply ((e + 1074) * 2 ^ 52 + m)

/-- **Places and levels go the same way.** -/
theorem Reads.level_lt_iff {v w : ℕ} {x y : UnpackedFloat} (hx : Reads v x) (hy : Reads w y)
    (hx' : x ≠ .notANumber) (hy' : y ≠ .notANumber) : place x < place y ↔ level x < level y := by
  cases hx with
  | notANumber _ _ _ => exact absurd rfl hx'
  | @infinity s _ =>
      cases hy with
      | notANumber _ _ _ => exact absurd rfl hy'
      | @infinity t _ =>
          cases s <;> cases t <;> simp [place, level, Sign.apply, Prod.Lex.toLex_lt_toLex]
      | @zero t _ =>
          cases s <;> simp [place, level, Sign.apply, Prod.Lex.toLex_lt_toLex]
      | @finite t m e hm k he hk hlt hnormal _ =>
          cases s <;> cases t <;>
            simp [place, level, Sign.apply, Prod.Lex.toLex_lt_toLex] <;> omega
  | @zero s _ =>
      cases hy with
      | notANumber _ _ _ => exact absurd rfl hy'
      | @infinity t _ =>
          cases t <;> simp [place, level, Sign.apply, Prod.Lex.toLex_lt_toLex]
      | zero _ => simp [place, level]
      | @finite t m e hm k he hk hlt hnormal _ =>
          cases t <;> simp [place, level, Sign.apply, Prod.Lex.toLex_lt_toLex] <;> omega
  | @finite s m e hm k he hk hlt hnormal _ =>
      cases hy with
      | notANumber _ _ _ => exact absurd rfl hy'
      | @infinity t _ =>
          cases s <;> cases t <;>
            simp [place, level, Sign.apply, Prod.Lex.toLex_lt_toLex] <;> omega
      | @zero t _ =>
          cases s <;> simp [place, level, Sign.apply, Prod.Lex.toLex_lt_toLex] <;> omega
      | @finite t m' e' hm' k' he' hk' hlt' hnormal' _ =>
          cases s <;> cases t <;>
            simp [place, level, Sign.apply, Prod.Lex.toLex_lt_toLex] <;> omega

/-- The word is the sign and the level without it. -/
theorem Reads.word_eq {w : ℕ} {x : UnpackedFloat} (h : Reads w x) (hx : x ≠ .notANumber) :
    ∃ s, w = signOffset s + (level x).natAbs ∧ (level x).natAbs < 2 ^ 63 ∧
      level x = Sign.apply s (level x).natAbs := by
  cases h with
  | notANumber _ _ _ => exact absurd rfl hx
  | @infinity s hw => exact ⟨s, by cases s <;> exact hw, by cases s <;> decide, by cases s <;> rfl⟩
  | @zero s hw => exact ⟨s, hw, show 0 < 2 ^ 63 by decide, by cases s <;> rfl⟩
  | @finite s m e hm k he hk hlt hnormal hw =>
      have hlevel : (level (.finite s m e hm)).natAbs = k * 2 ^ 52 + m := by
        cases s <;> simp only [level, Sign.apply] <;> omega
      refine ⟨s, ?_, ?_, ?_⟩
      · omega
      · omega
      · rw [hlevel]
        cases s <;> simp only [level, Sign.apply] <;> push_cast <;> omega

/-- **What is below has the lower position in the total order.** -/
theorem position_lt {v w : Binary64} (h : v < w) : v.position < w.position := by
  obtain ⟨hv, hw, hplace⟩ := lt_iff_place.1 (of_decide_eq_true h)
  have hlevel := ((reads v).level_lt_iff (reads w) hv hw).1 hplace
  obtain ⟨s, hv, hvlt, hs⟩ := (reads v).word_eq hv
  obtain ⟨t, hw, hwlt, ht⟩ := (reads w).word_eq hw
  have hbound : Word.bound 63 = 2 ^ 63 := rfl
  rw [position, position, hbound]
  cases s <;> cases t <;> simp only [signOffset, Sign.apply] at hv hw hs ht <;> split <;> split <;>
    omega

/-! ## Magnitudes -/

/-- Changing the sign keeps the magnitude. -/
theorem magnitudeBits_neg (v : Binary64) : (-v).magnitudeBits = v.magnitudeBits := by
  show (v.bits ^^^ signBit) &&& 0x7fffffffffffffff = v.bits &&& 0x7fffffffffffffff
  have hmask : signBit.toNat &&& (0x7fffffffffffffff : UInt64).toNat = 0 := by decide
  rw [← UInt64.toNat_inj, UInt64.toNat_and, UInt64.toNat_and, UInt64.toNat_xor,
    Nat.and_xor_distrib_right, hmask, Nat.xor_zero]

/-- Dropping the sign keeps the magnitude. -/
theorem magnitudeBits_abs (v : Binary64) : v.abs.magnitudeBits = v.magnitudeBits := by
  show (v.bits &&& 0x7fffffffffffffff) &&& 0x7fffffffffffffff = v.bits &&& 0x7fffffffffffffff
  rw [UInt64.and_assoc, UInt64.and_self]

/-- The bits without the sign as a number. -/
theorem toNat_magnitudeBits (v : Binary64) : v.magnitudeBits.toNat = v.bits.toNat % 2 ^ 63 := by
  rw [magnitudeBits, UInt64.toNat_and]
  exact Nat.and_two_pow_sub_one_eq_mod _ 63

theorem place_zero_le {y : UnpackedFloat} (h : UnpackedFloat.le (.zero .positive) y = true) :
    place (.zero .positive) ≤ place y := by
  rcases y with (_ | _) | _ | _ | ⟨_ | _, m, e, hm⟩ <;>
    simp_all [UnpackedFloat.le, UnpackedFloat.compare, place, Prod.Lex.toLex_le_toLex]

/-- **What lies above a tolerance is not zero.** -/
theorem isZero_eq_false_of_lt {tol a : Binary64} (htol : 0 ≤ tol) (h : tol < a) :
    a.isZero = false := by
  obtain ⟨-, ha, hplace⟩ := lt_iff_place.1 (of_decide_eq_true h)
  have hzero : (0 : Binary64).toFloat.toModel.unpack = .zero .positive := rfl
  have htol : UnpackedFloat.le (.zero .positive) tol.toFloat.toModel.unpack = true :=
    of_decide_eq_true htol
  have hlevel := ((reads 0).level_lt_iff (reads a) (by rw [hzero]; simp) ha).1
    ((place_zero_le htol).trans_lt hplace)
  rw [hzero] at hlevel
  have hlevel : 0 < level a.toFloat.toModel.unpack := hlevel
  obtain ⟨s, hword, hlt, -⟩ := (reads a).word_eq ha
  have hbits := toNat_magnitudeBits a
  refine beq_eq_false_iff_ne.2 fun hmagnitude => ?_
  rw [hmagnitude, hword] at hbits
  have hbits : 0 = (signOffset s + (level a.toFloat.toModel.unpack).natAbs) % 2 ^ 63 := hbits
  cases s <;> simp only [signOffset] at hbits <;> omega

end Binary64

end BranchBound
