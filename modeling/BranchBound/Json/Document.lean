/-!
# JSON documents as they are met in a text

A `Document` is a text taken apart as far as it goes.  Where the text breaks down, the document
has a `broken` part at that place and nothing after it.  A reader that walks a document from left
to right therefore meets the errors of the text in their place among its own, and the first error
met is the first one in the text.

Numerals and strings stay taken apart, because what they are worth depends on whether they are
read at all: a numeral that is skipped may be out of every range, and a string that is skipped may
hold half of a surrogate pair.
-/

namespace BranchBound

namespace Json

/-- How a text breaks down. -/
inductive Break where
  /-- Something that cannot stand here. -/
  | malformed
  /-- The text ends too early. -/
  | truncated
deriving DecidableEq, Repr

/-- A part of a string. -/
inductive Piece where
  /-- A character, written as itself or by a short escape. -/
  | char (c : Char)
  /-- A sixteen-bit unit, written as four hexadecimal digits. -/
  | unit (n : Nat)
deriving DecidableEq, Repr

/-- The inside of a string, up to its closing quote or to where it breaks. -/
structure Quoted where
  /-- The parts. -/
  pieces : List Piece
  /-- How the string breaks; none if it is closed. -/
  fault : Option Break
deriving DecidableEq, Repr

/-- A numeral by its parts, digits as characters. -/
structure Numeral where
  /-- There is a minus sign. -/
  negative : Bool
  /-- Digits before the point. -/
  whole : List Char
  /-- Digits after the point; empty without a point. -/
  fraction : List Char
  /-- Sign and digits of the power of ten. -/
  power : Option (Bool × List Char)
deriving DecidableEq, Repr

/-- A text taken apart. -/
inductive Document where
  | null
  | flag (value : Bool)
  | number (numeral : Numeral)
  /-- A numeral that the end of the text cuts off. -/
  | cutNumeral
  /-- A word that the end of the text cuts off, and whether it would have been `null`. -/
  | cutWord (isNull : Bool)
  | text (quoted : Quoted)
  /-- Items, and how the list breaks after them; none if it is closed. -/
  | list (items : List Document) (fault : Option Break)
  /-- Named values, what stands in place of a further name, and how the record breaks after its
  values; none if it is closed. -/
  | record (fields : List (Quoted × Document)) (stray : Option Document) (fault : Option Break)
  /-- Nothing can be read here. -/
  | broken (fault : Break)

/-- The break that skipping a document meets.  The value of a numeral and the pairing of surrogates
do not matter, and a numeral cut off by the end counts as malformed. -/
def Document.skip : Document → Option Break
  | .null | .flag _ | .number _ => none
  | .cutNumeral => some .malformed
  | .cutWord _ => some .truncated
  | .text quoted => quoted.fault
  | .list items fault => (skipItems items).orElse (fun _ => fault)
  | .record fields stray fault =>
      (skipFields fields).orElse (fun _ =>
        match stray with
        | some (.broken .truncated) => some .truncated
        | some _ => some .malformed
        | none => fault)
  | .broken fault => some fault
where
  /-- The break that skipping the items meets. -/
  skipItems : List Document → Option Break
    | [] => none
    | d :: rest => d.skip.orElse (fun _ => skipItems rest)
  /-- The break that skipping the names and values meets. -/
  skipFields : List (Quoted × Document) → Option Break
    | [] => none
    | (name, d) :: rest =>
      name.fault.orElse (fun _ => d.skip.orElse (fun _ => skipFields rest))

end Json

end BranchBound
