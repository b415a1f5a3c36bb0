import BranchBound.Json.Document

/-!
# Strings in JSON

Reading puts the two halves of a surrogate pair together (`Quoted.decode`); a half that stands alone
is malformed.  Writing escapes the quote, the backslash and the control characters, and leaves
everything else as it is (`quote`).
-/

namespace BranchBound

namespace Json

/-- The unit is the first half of a surrogate pair. -/
def isHighSurrogate (n : Nat) : Bool := decide (0xd800 ≤ n ∧ n < 0xdc00)

/-- The unit is the second half of a surrogate pair. -/
def isLowSurrogate (n : Nat) : Bool := decide (0xdc00 ≤ n ∧ n < 0xe000)

/-- The character of a surrogate pair. -/
def pairChar (high low : Nat) : Char :=
  Char.ofNat (0x10000 + (high - 0xd800) * 0x400 + (low - 0xdc00))

/-- The characters of the pieces, if the string breaks as `fault` tells. -/
def decodePieces (fault : Option Break) : List Piece → Except Break (List Char)
  | [] =>
    match fault with
    | some b => .error b
    | none => .ok []
  | .char c :: rest => (decodePieces fault rest).map (fun cs => c :: cs)
  | .unit n :: rest =>
    if isLowSurrogate n then .error .malformed
    else if isHighSurrogate n then
      match rest with
      | .unit low :: rest' =>
        if isLowSurrogate low then
          (decodePieces fault rest').map (fun cs => pairChar n low :: cs)
        else .error .malformed
      | .char _ :: _ => .error .malformed
      | [] => .error (fault.getD .malformed)
    else (decodePieces fault rest).map (fun cs => Char.ofNat n :: cs)

/-- The text of a string. -/
def Quoted.decode (q : Quoted) : Except Break String :=
  (decodePieces q.fault q.pieces).map String.ofList

/-- A hexadecimal digit, small letters above nine. -/
def hexDigit (n : Nat) : Char := (Nat.digitChar (n % 16))

/-- A character as it is written inside a string. -/
def escape (c : Char) : List Char :=
  if c = '"' then ['\\', '"']
  else if c = '\\' then ['\\', '\\']
  else if c = '\x08' then ['\\', 'b']
  else if c = '\x0c' then ['\\', 'f']
  else if c = '\n' then ['\\', 'n']
  else if c = '\r' then ['\\', 'r']
  else if c = '\t' then ['\\', 't']
  else if c < ' ' then ['\\', 'u', '0', '0', hexDigit (c.toNat / 16), hexDigit c.toNat]
  else [c]

/-- A text as a JSON string. -/
def quote (s : String) : String :=
  String.ofList ('"' :: s.toList.flatMap escape ++ ['"'])

end Json

end BranchBound
