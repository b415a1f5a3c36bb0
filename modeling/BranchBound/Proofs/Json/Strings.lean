import BranchBound.Json.Quoted
import BranchBound.Json.Scan
import Mathlib.Tactic.FinCases

/-!
# Strings as they are written

A string is written with escapes for the quote, the backslash and the control characters.  Taking
it apart gives one piece for each character (`scanQuoted_escape`), and the pieces are read as the
string again (`decode_quoted`), whatever characters it has.
-/

namespace BranchBound

namespace Json

/-- The piece that a character is written as: control characters without a short escape are
written as units. -/
def writtenPiece (c : Char) : Piece :=
  if c < ' ' ∧ c ∉ ['\x08', '\x0c', '\n', '\r', '\t'] then .unit c.toNat else .char c

/-- A string that is written and taken apart. -/
def quoted (s : String) : Quoted := ⟨s.toList.map writtenPiece, none⟩

/-- The two digits of a control character give its number back. -/
theorem hexUnit?_hexDigit : ∀ n < 32,
    hexUnit? '0' '0' (hexDigit (n / 16)) (hexDigit n) = some n := by
  decide

theorem toNat_lt_of_lt_blank {c : Char} (hc : c < ' ') : c.toNat < 32 := hc

/-- **A written character is taken apart into its piece.** -/
theorem scanQuoted_escape_append (c : Char) (cs : List Char) :
    scanQuoted (escape c ++ cs) = consPiece (writtenPiece c) (scanQuoted cs) := by
  by_cases hshort : c ∈ ['"', '\\', '\x08', '\x0c', '\n', '\r', '\t']
  · fin_cases hshort <;> rfl
  · simp only [List.mem_cons, List.not_mem_nil, or_false, not_or] at hshort
    obtain ⟨h₁, h₂, h₃, h₄, h₅, h₆, h₇⟩ := hshort
    simp only [escape, writtenPiece, List.mem_cons, List.not_mem_nil, or_false, h₁, h₂, h₃, h₄, h₅,
      h₆, h₇, if_false, not_false_eq_true, and_true]
    by_cases hcontrol : c < ' '
    · have hunit := hexUnit?_hexDigit _ (toNat_lt_of_lt_blank hcontrol)
      simp [scanQuoted, hunit, hcontrol]
    · simp [scanQuoted, h₂, hcontrol]

/-- **A written string is taken apart into its pieces.** -/
theorem scanQuoted_flatMap_escape (s rest : List Char) :
    scanQuoted (s.flatMap escape ++ '"' :: rest) = (⟨s.map writtenPiece, none⟩, rest) := by
  induction s with
  | nil => simp [scanQuoted]
  | cons c s ih =>
      rw [List.flatMap_cons, List.append_assoc, scanQuoted_escape_append, ih]
      rfl

/-- The pieces of a written string are read as its characters. -/
theorem decodePieces_writtenPiece (s : List Char) :
    decodePieces none (s.map writtenPiece) = .ok s := by
  induction s with
  | nil => rfl
  | cons c s ih =>
      rw [List.map_cons, writtenPiece]
      split
      case isTrue h =>
        have hlt := toNat_lt_of_lt_blank h.1
        have hlow : isLowSurrogate c.toNat = false := decide_eq_false (by omega)
        have hhigh : isHighSurrogate c.toNat = false := decide_eq_false (by omega)
        rw [decodePieces.eq_def]
        simp [hlow, hhigh, ih, Except.map]
      case isFalse h =>
        rw [decodePieces, ih]
        rfl

/-- **A written string is read back.** -/
theorem decode_quoted (s : String) : (quoted s).decode = .ok s := by
  rw [Quoted.decode, quoted, decodePieces_writtenPiece]
  exact congrArg Except.ok String.ofList_toList

end Json

end BranchBound
