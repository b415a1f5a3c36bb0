import BranchBound.Json.Numeral
import BranchBound.Json.Quoted

/-!
# JSON values and how they are written

Two layouts: `compact` has no blanks at all, `pretty` puts every item and field on a line of its
own, indented by two blanks for each level.  A number that is not finite is written as `null`.
-/

namespace BranchBound

namespace Json

/-- A value to be written. -/
inductive Value where
  | null
  | flag (value : Bool)
  | natural (value : Nat)
  | real (value : Binary64)
  | text (value : String)
  | list (items : List Value)
  | record (fields : List (String × Value))

namespace Value

/-- Texts with a separator between them. -/
def separated (separator : String) : List String → String
  | [] => ""
  | [t] => t
  | t :: rest => t ++ separator ++ separated separator rest

/-- A value without its parts, as it is written in every layout. -/
def scalarText : Value → String
  | .null => "null"
  | .flag value => if value then "true" else "false"
  | .natural value => toString value
  | .real value => realText value
  | .text value => quote value
  | .list _ => "[]"
  | .record _ => "\x7b\x7d"

/-- A value without any blanks. -/
def compact : Value → String
  | .list items => "[" ++ separated "," (compactItems items) ++ "]"
  | .record fields => "\x7b" ++ separated "," (compactFields fields) ++ "\x7d"
  | v => v.scalarText
where
  /-- The items, each without blanks. -/
  compactItems : List Value → List String
    | [] => []
    | v :: rest => v.compact :: compactItems rest
  /-- The fields, each without blanks. -/
  compactFields : List (String × Value) → List String
    | [] => []
    | (name, v) :: rest => (quote name ++ ":" ++ v.compact) :: compactFields rest

/-- A new line at a level of indentation. -/
def newLine (level : Nat) : String := "\n" ++ String.ofList (List.replicate (2 * level) ' ')

/-- Lines of a list or record between its brackets. -/
def block (level : Nat) (opening closing : String) (lines : List String) : String :=
  opening ++ newLine (level + 1) ++ separated ("," ++ newLine (level + 1)) lines ++
    newLine level ++ closing

/-- A value on lines of its own, at a level of indentation. -/
def prettyAt (level : Nat) : Value → String
  | .list items =>
    if items.isEmpty then "[]" else block level "[" "]" (prettyItems (level + 1) items)
  | .record fields =>
    if fields.isEmpty then "\x7b\x7d"
    else block level "\x7b" "\x7d" (prettyFields (level + 1) fields)
  | v => v.scalarText
where
  /-- The items, each at its level. -/
  prettyItems (level : Nat) : List Value → List String
    | [] => []
    | v :: rest => v.prettyAt level :: prettyItems level rest
  /-- The fields, each at its level. -/
  prettyFields (level : Nat) : List (String × Value) → List String
    | [] => []
    | (name, v) :: rest => (quote name ++ ": " ++ v.prettyAt level) :: prettyFields level rest

/-- A value on lines of its own. -/
def pretty (v : Value) : String := v.prettyAt 0

end Value

end Json

end BranchBound
