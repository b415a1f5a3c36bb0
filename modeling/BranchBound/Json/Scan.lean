import BranchBound.Json.Document

/-!
# Taking a JSON text apart

`scan` reads one value and notes whether anything but blanks follows it.  Each function returns what
it read and the text behind it; behind something broken that text is empty.  The depth of nesting is
not limited: the readers carry a budget of calls, every two calls use up a character, and `scan`
gives enough of them for the whole text.
-/

namespace BranchBound

namespace Json

/-- The four blanks of JSON. -/
def isBlank (c : Char) : Bool := c == ' ' || c == '\n' || c == '\t' || c == '\r'

/-- The text from its first character that is not blank. -/
def skipBlanks (cs : List Char) : List Char := cs.dropWhile isBlank

/-- A decimal digit. -/
def isDigit (c : Char) : Bool := decide ('0' ≤ c ∧ c ≤ '9')

/-- Value of a hexadecimal digit. -/
def hexValue? (c : Char) : Option Nat :=
  if '0' ≤ c ∧ c ≤ '9' then some (c.toNat - '0'.toNat)
  else if 'a' ≤ c ∧ c ≤ 'f' then some (c.toNat - 'a'.toNat + 10)
  else if 'A' ≤ c ∧ c ≤ 'F' then some (c.toNat - 'A'.toNat + 10)
  else none

/-- Value of four hexadecimal digits. -/
def hexUnit? (a b c d : Char) : Option Nat := do
  return ((← hexValue? a) * 16 + (← hexValue? b)) * 256 + (← hexValue? c) * 16 + (← hexValue? d)

/-- The character behind a short escape. -/
def shortEscape? : Char → Option Char
  | '"' => some '"'
  | '\\' => some '\\'
  | '/' => some '/'
  | 'b' => some '\x08'
  | 'f' => some '\x0c'
  | 'n' => some '\n'
  | 'r' => some '\r'
  | 't' => some '\t'
  | _ => none

/-- Put a piece in front of a string. -/
def consPiece (p : Piece) (rest : Quoted × List Char) : Quoted × List Char :=
  ({ rest.1 with pieces := p :: rest.1.pieces }, rest.2)

/-- A string that breaks at once. -/
def brokenQuoted (fault : Break) : Quoted × List Char := (⟨[], some fault⟩, [])

/-- Number of bytes of a text. -/
def byteLength (cs : List Char) : Nat := cs.foldl (fun n c => n + c.utf8Size) 0

/-- The inside of a string.  An escape of four digits for which fewer than four bytes are left is
cut off; with enough bytes it is malformed unless all are digits. -/
def scanQuoted : List Char → Quoted × List Char
  | [] => brokenQuoted .truncated
  | '"' :: rest => (⟨[], none⟩, rest)
  | '\\' :: 'u' :: a :: b :: c :: d :: rest =>
    match hexUnit? a b c d with
    | some n => consPiece (.unit n) (scanQuoted rest)
    | none => brokenQuoted .malformed
  | '\\' :: 'u' :: rest => brokenQuoted (if byteLength rest < 4 then .truncated else .malformed)
  | '\\' :: c :: rest =>
    match shortEscape? c with
    | some e => consPiece (.char e) (scanQuoted rest)
    | none => brokenQuoted .malformed
  | ['\\'] => brokenQuoted .truncated
  | c :: rest => if c < ' ' then brokenQuoted .malformed else consPiece (.char c) (scanQuoted rest)

/-- A numeral or how it fails: at the end of the text it is cut off, elsewhere malformed. -/
def numeralFault (rest : List Char) : Document × List Char :=
  if rest.isEmpty then (.cutNumeral, []) else (.broken .malformed, [])

/-- The power of ten of a numeral, if there is one. -/
def scanPower (n : Numeral) (cs : List Char) : Document × List Char :=
  let digitsOf (negative : Bool) (cs : List Char) : Document × List Char :=
    let digits := cs.takeWhile isDigit
    if digits.isEmpty then numeralFault cs
    else (.number { n with power := some (negative, digits) }, cs.dropWhile isDigit)
  match cs with
  | c :: rest =>
    if c == 'e' || c == 'E' then
      match rest with
      | '-' :: rest' => digitsOf true rest'
      | '+' :: rest' => digitsOf false rest'
      | _ => digitsOf false rest
    else (.number n, cs)
  | [] => (.number n, cs)

/-- The fraction of a numeral, if there is one, and what follows. -/
def scanFraction (n : Numeral) (cs : List Char) : Document × List Char :=
  match cs with
  | '.' :: rest =>
    let digits := rest.takeWhile isDigit
    if digits.isEmpty then numeralFault rest
    else scanPower { n with fraction := digits } (rest.dropWhile isDigit)
  | _ => scanPower n cs

/-- A numeral from its first digit.  A zero in front is followed by no other digit. -/
def scanNumeral (negative : Bool) (cs : List Char) : Document × List Char :=
  let digits := cs.takeWhile isDigit
  let rest := cs.dropWhile isDigit
  match digits with
  | [] => numeralFault cs
  | '0' :: _ :: _ => (.broken .malformed, [])
  | _ => scanFraction ⟨negative, digits, [], none⟩ rest

/-- One of the three words, after its first letter. -/
def scanWord (value : Document) (isNull : Bool) : (word : List Char) → List Char →
    Document × List Char
  | [], cs => (value, cs)
  | _ :: _, [] => (.cutWord isNull, [])
  | w :: word, c :: cs =>
    if c = w then scanWord value isNull word cs else (.broken .malformed, [])

/-- The document ends where it should, so that the text behind it can be read. -/
def Document.isWhole : Document → Bool
  | .null | .flag _ | .number _ => true
  | .cutNumeral | .cutWord _ | .broken _ => false
  | .text quoted => quoted.fault.isNone
  | .list _ fault => fault.isNone
  | .record _ stray fault => stray.isNone && fault.isNone

mutual

/-- One value. -/
def scanValue : (budget : Nat) → List Char → Document × List Char
  | 0, _ => (.broken .malformed, [])
  | budget + 1, cs =>
    match skipBlanks cs with
    | [] => (.broken .truncated, [])
    | 'n' :: rest => scanWord .null true ['u', 'l', 'l'] rest
    | 't' :: rest => scanWord (.flag true) false ['r', 'u', 'e'] rest
    | 'f' :: rest => scanWord (.flag false) false ['a', 'l', 's', 'e'] rest
    | '"' :: rest =>
      let (quoted, rest) := scanQuoted rest
      (.text quoted, rest)
    | '-' :: rest => scanNumeral true rest
    | '[' :: rest =>
      match skipBlanks rest with
      | [] => (.list [] (some .truncated), [])
      | ']' :: rest => (.list [] none, rest)
      | rest =>
        let (items, fault, rest) := scanItems budget rest
        (.list items fault, rest)
    | '\x7b' :: rest =>
      match skipBlanks rest with
      | [] => (.record [] none (some .truncated), [])
      | '\x7d' :: rest => (.record [] none none, rest)
      | rest =>
        let (fields, stray, fault, rest) := scanFields budget rest
        (.record fields stray fault, rest)
    | c :: rest => if isDigit c then scanNumeral false (c :: rest) else (.broken .malformed, [])

/-- Items of a list from its first one, with commas between them. -/
def scanItems : (budget : Nat) → List Char → List Document × Option Break × List Char
  | 0, _ => ([], some .malformed, [])
  | budget + 1, cs =>
    let (item, rest) := scanValue budget cs
    if item.isWhole then
      match skipBlanks rest with
      | [] => ([item], some .truncated, [])
      | ']' :: rest => ([item], none, rest)
      | ',' :: rest =>
        let (items, fault, rest) := scanItems budget rest
        (item :: items, fault, rest)
      | _ => ([item], some .malformed, [])
    else ([item], some .malformed, [])

/-- Fields of a record from its first name, with commas between them. -/
def scanFields : (budget : Nat) → List Char →
    List (Quoted × Document) × Option Document × Option Break × List Char
  | 0, _ => ([], none, some .malformed, [])
  | budget + 1, cs =>
    match skipBlanks cs with
    | '"' :: rest =>
      let (name, rest) := scanQuoted rest
      if name.fault.isSome then ([(name, .broken .malformed)], none, some .malformed, [])
      else
        match skipBlanks rest with
        | [] => ([(name, .broken .truncated)], none, some .malformed, [])
        | ':' :: rest =>
          let (value, rest) := scanValue budget rest
          if value.isWhole then
            match skipBlanks rest with
            | [] => ([(name, value)], none, some .truncated, [])
            | '\x7d' :: rest => ([(name, value)], none, none, rest)
            | ',' :: rest =>
              let (fields, stray, fault, rest) := scanFields budget rest
              ((name, value) :: fields, stray, fault, rest)
            | _ => ([(name, value)], none, some .malformed, [])
          else ([(name, value)], none, some .malformed, [])
        | _ => ([(name, .broken .malformed)], none, some .malformed, [])
    | rest => ([], some (scanValue budget rest).1, none, [])

end

/-- A text taken apart, and what follows the value in it. -/
structure Scanned where
  /-- The value. -/
  document : Document
  /-- Something other than blanks follows it. -/
  trailing : Bool

/-- Take a text apart. -/
def scan (text : String) : Scanned :=
  let cs := text.toList
  let (document, rest) := scanValue (2 * cs.length + 2) cs
  ⟨document, !(skipBlanks rest).isEmpty⟩

end Json

end BranchBound
