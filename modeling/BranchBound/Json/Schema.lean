import BranchBound.Json.ReadError
import BranchBound.Json.Scan
import BranchBound.Json.Value

/-!
# Schemas: one description for reading and writing

A schema describes how the values of a type are laid out in JSON.  `encode` writes a value by its
schema and `decode` reads one, so the two cannot drift apart.  Reading is generous: a record may
have fields that the schema does not know, its fields may come in any order, some may be left out,
and a list in the order of the schema may stand for it.  A choice may be given by its name or by a
record with its name as the only field and nothing in it.

A document is walked from left to right and the first thing wrong in it is the error.
-/

namespace BranchBound

namespace Json

/-- What it means that a field is left out. -/
inductive Absence (α : Type) where
  /-- It is an error. -/
  | forbidden
  /-- The field has this value, if a record leaves it out; a list may not. -/
  | inRecord (value : α)
  /-- The field has this value. -/
  | allowed (value : α)

mutual

/-- A layout of the values of a type. -/
inductive Schema : Type → Type 1 where
  /-- A number. -/
  | real : Schema Binary64
  /-- A natural number below a bound; the name is what messages call it. -/
  | natural (name : String) (bound : Nat) : Schema Nat
  /-- A truth value. -/
  | flag : Schema Bool
  /-- A string. -/
  | text : Schema String
  /-- A list. -/
  | list {α : Type} (item : Schema α) : Schema (List α)
  /-- A value or `null`. -/
  | optional {α : Type} (item : Schema α) : Schema (Option α)
  /-- One of some names; every value has one of them. -/
  | choice {α : Type} (choices : List (String × α)) (name : α → String)
      (lookup_name : ∀ value, choices.lookup (name value) = some value) : Schema α
  /-- Named fields, and the value that they make up; a value is made up of its own fields. -/
  | record {α ρ δ : Type} (name : String) (fields : Fields ρ δ) (make : ρ → α) (view : α → ρ)
      (make_view : ∀ value, make (view value) = value) : Schema α

/-- Named fields in order: the type of their values, and the type of a record that is only partly
read. -/
inductive Fields : Type → Type → Type 1 where
  /-- No fields. -/
  | nil : Fields Unit Unit
  /-- A field before others. -/
  | cons {α ρ δ : Type} (name : String) (absence : Absence α) (item : Schema α)
      (rest : Fields ρ δ) : Fields (α × ρ) (Option α × δ)

end

namespace Fields

/-- Number of fields. -/
def size {ρ δ : Type} : Fields ρ δ → Nat
  | .nil => 0
  | .cons _ _ _ rest => rest.size + 1

/-- Nothing read yet. -/
def blank {ρ δ : Type} : Fields ρ δ → δ
  | .nil => ()
  | .cons _ _ _ rest => (none, rest.blank)

/-- The values of the fields, with those that were left out filled in. -/
def complete {ρ δ : Type} : Fields ρ δ → δ → Except ReadError ρ
  | .nil, () => .ok ()
  | .cons name absence _ rest, (slot, slots) => do
    let value ← match slot, absence with
      | some value, _ => .ok value
      | none, .forbidden => .error (.misfit (.missingField name))
      | none, .inRecord value => .ok value
      | none, .allowed value => .ok value
    return (value, ← rest.complete slots)

end Fields

/-! ## Writing -/

mutual

/-- A value by its schema. -/
def Schema.encode {α : Type} : Schema α → α → Value
  | .real, v => .real v
  | .natural _ _, n => .natural n
  | .flag, b => .flag b
  | .text, s => .text s
  | .list item, values => .list (values.map item.encode)
  | .optional item, value? =>
    match value? with
    | none => .null
    | some value => item.encode value
  | .choice _ name _, value => .text (name value)
  | .record _ fields _ view _, value => .record (fields.encode (view value))

/-- The fields with their names. -/
def Fields.encode {ρ δ : Type} : Fields ρ δ → ρ → List (String × Value)
  | .nil, () => []
  | .cons name _ item rest, (value, values) => (name, item.encode value) :: rest.encode values

end

/-! ## Reading -/

/-- The text of a string, or the error of reading it. -/
def readText (q : Quoted) : Except ReadError String := q.decode.mapError .ofBreak

/-- The value of a numeral, or the error of reading it. -/
def readNumber (n : Numeral) : Except ReadError Number :=
  match n.value? with
  | some v => .ok v
  | none => .error .malformed

/-- What a document is found to be, as far as it can be read without looking into its parts. -/
def Document.found : Document → Except ReadError Found
  | .null => .ok .null
  | .flag value => .ok (.flag value)
  | .number numeral => (readNumber numeral).map .number
  | .cutNumeral | .cutWord _ => .error .truncated
  | .text quoted => (readText quoted).map .text
  | .list _ _ => .ok .list
  | .record _ _ _ => .ok .record
  | .broken fault => .error (.ofBreak fault)

/-- The error that a document is not of the expected kind. -/
def wrongKind {α : Type} (d : Document) (expected : String) : Except ReadError α := do
  throw (.misfit (.wrongKind (← d.found) expected))

/-- No error if a part ends where it should. -/
def checkEnd : Option Break → Except ReadError Unit
  | none => .ok ()
  | some fault => .error (.ofBreak fault)

/-- Skip a document that nobody asked for. -/
def skipDocument (d : Document) : Except ReadError Unit := checkEnd d.skip

/-- A natural number below a bound. -/
def decodeNatural (name : String) (bound : Nat) : Document → Except ReadError Nat
  | .number numeral => do
    match ← readNumber numeral with
    | .natural n =>
      if n < bound then return n
      else throw (.misfit (.outOfRange (.number (.natural n)) name))
    | .negative n => throw (.misfit (.outOfRange (.number (.negative n)) name))
    | .real v => throw (.misfit (.wrongKind (.number (.real v)) name))
  | d => wrongKind d name

/-- The value with a name. -/
def chosen {α : Type} (choices : List (String × α)) (name : String) : Except ReadError α :=
  match choices.lookup name with
  | some value => .ok value
  | none => .error (.misfit (.unknownChoice name (choices.map Prod.fst)))

/-- What may stand for nothing inside a choice. -/
def decodeNothing : Document → Except ReadError Unit
  | .null => .ok ()
  | d => wrongKind d "unit"

/-- The rest of a record behind its only field. -/
def checkSingle (more : List (Quoted × Document)) (stray : Option Document) (fault : Option Break) :
    Except ReadError Unit :=
  if more.isEmpty && stray.isNone then checkEnd fault else .error .malformed

/-- What stands in place of a further name: nothing may, but the text may also end there. -/
def checkStray : Option Document → Except ReadError Unit
  | none => .ok ()
  | some (.broken fault) => .error (.ofBreak fault)
  | some _ => .error .malformed

/-- One of some names, alone or as the only field of a record. -/
def decodeChoice {α : Type} (choices : List (String × α)) : Document → Except ReadError α
  | .text quoted => do chosen choices (← readText quoted)
  | .record ((name, value) :: more) stray fault => do
    let result ← chosen choices (← readText name)
    decodeNothing value
    checkSingle more stray fault
    return result
  | .record [] stray fault => do
    checkStray stray
    checkEnd fault
    throw .malformed
  | .broken fault => throw (.ofBreak fault)
  | _ => throw .malformed

/-- How messages call a record that is given as a list. -/
def listedRecord (name : String) (size : Nat) : String :=
  s!"struct {name} with {size} element" ++ (if size = 1 then "" else "s")

/-- What follows the last field of a record that is given as a list. -/
def checkLast (items : List Document) (fault : Option Break) : Except ReadError Unit :=
  if items.isEmpty then checkEnd fault else .error .malformed

mutual

/-- A value by its schema. -/
def Schema.decode {α : Type} : Schema α → Document → Except ReadError α
  | .real, d =>
    match d with
    | .number numeral => (readNumber numeral).map Number.toBinary64
    | d => wrongKind d "f64"
  | .natural name bound, d => decodeNatural name bound d
  | .flag, d =>
    match d with
    | .flag value => .ok value
    | d => wrongKind d "a boolean"
  | .text, d =>
    match d with
    | .text quoted => readText quoted
    | d => wrongKind d "a string"
  | .list item, d =>
    match d with
    | .list items fault => do
      let values ← items.mapM item.decode
      checkEnd fault
      return values
    | d => wrongKind d "a sequence"
  | .optional item, d =>
    match d with
    | .null => .ok none
    | .cutWord true => .error .truncated
    | d => (item.decode d).map some
  | .choice choices _ _, d => decodeChoice choices d
  | .record name fields make _ _, d =>
    match d with
    | .record entries stray fault => do
      let slots ← entries.foldlM
        (fun slots (entry : Quoted × Document) => do
          let key ← readText entry.1
          fields.put key entry.2 slots) fields.blank
      checkStray stray
      checkEnd fault
      return make (← fields.complete slots)
    | .list items fault => (fields.ofItems (listedRecord name fields.size) 0 items fault).map make
    | d => wrongKind d ("struct " ++ name)

/-- Read a field into its slot; a field that is not known is skipped. -/
def Fields.put {ρ δ : Type} : Fields ρ δ → String → Document → δ → Except ReadError δ
  | .nil, _, d, () => skipDocument d
  | .cons name _ item rest, key, d, (slot, slots) =>
    if key = name then
      match slot with
      | some _ => .error (.misfit (.duplicateField name))
      | none => (item.decode d).map (fun value => (some value, slots))
    else (rest.put key d slots).map (fun slots => (slot, slots))

/-- Read the fields from a list in their order, of which `index` have been read. -/
def Fields.ofItems {ρ δ : Type} : Fields ρ δ → (expected : String) → (index : Nat) →
    List Document → Option Break → Except ReadError ρ
  | .nil, _, _, items, fault => checkLast items fault
  | .cons _ absence item rest, expected, index, items, fault =>
    match items with
    | d :: items => do
      let value ← item.decode d
      return (value, ← rest.ofItems expected (index + 1) items fault)
    | [] => do
      checkEnd fault
      match absence with
      | .allowed value => return (value, ← rest.ofItems expected (index + 1) [] fault)
      | _ => throw (.misfit (.tooShort index expected))

end

/-- Read a text by a schema. -/
def Schema.read {α : Type} (schema : Schema α) (text : String) : Except ReadError α := do
  let scanned := scan text
  let value ← schema.decode scanned.document
  if scanned.trailing then throw .malformed else return value

end Json

end BranchBound
