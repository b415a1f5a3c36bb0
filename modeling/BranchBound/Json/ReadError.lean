import BranchBound.Json.Numeral
import BranchBound.Json.Quoted
import BranchBound.Text.Visible

/-!
# Errors of reading JSON

Either the text is not JSON, or it is and does not describe what was asked for.  In the second case
the error tells what was found and what was expected.
-/

namespace BranchBound

namespace Json

/-- What was found in place of something else. -/
inductive Found where
  | null
  | flag (value : Bool)
  | number (value : Number)
  | text (value : String)
  | list
  | record

/-- How a document fails to describe what was asked for. -/
inductive Misfit where
  /-- The wrong kind of value. -/
  | wrongKind (found : Found) (expected : String)
  /-- A number of the right kind and out of range. -/
  | outOfRange (found : Found) (expected : String)
  /-- A list that is too short for the fields it stands for. -/
  | tooShort (length : Nat) (expected : String)
  /-- A name that is not one of the choices. -/
  | unknownChoice (name : String) (choices : List String)
  /-- A field that must be there is not. -/
  | missingField (name : String)
  /-- A field is there twice. -/
  | duplicateField (name : String)

/-- Why a text cannot be read. -/
inductive ReadError where
  | misfit (cause : Misfit)
  | malformed
  | truncated

namespace ReadError

/-- The error that a break in the text causes. -/
def ofBreak : Break → ReadError
  | .malformed => .malformed
  | .truncated => .truncated

end ReadError

namespace Found

/-- What was found, in words. -/
def describe : Found → String
  | .null => "null"
  | .flag value => "boolean `" ++ (if value then "true" else "false") ++ "`"
  | .number (.natural n) => s!"integer `{n}`"
  | .number (.negative n) => s!"integer `-{n}`"
  | .number (.real v) => "floating point `" ++ realText v ++ "`"
  | .text value => "string " ++ Visible.quote value
  | .list => "sequence"
  | .record => "map"

end Found

namespace Misfit

/-- A name between grave accents. -/
def marked (name : String) : String := "`" ++ name ++ "`"

/-- The choices in words. -/
def describeChoices : List String → String
  | [] => "there are no variants"
  | [a] => "expected " ++ marked a
  | [a, b] => "expected " ++ marked a ++ " or " ++ marked b
  | choices => "expected one of " ++ ", ".intercalate (choices.map marked)

/-- The misfit in words. -/
def message : Misfit → String
  | .wrongKind found expected => "invalid type: " ++ found.describe ++ ", expected " ++ expected
  | .outOfRange found expected => "invalid value: " ++ found.describe ++ ", expected " ++ expected
  | .tooShort length expected => s!"invalid length {length}, expected " ++ expected
  | .unknownChoice name choices =>
      "unknown variant " ++ marked name ++ ", " ++ describeChoices choices
  | .missingField name => "missing field " ++ marked name
  | .duplicateField name => "duplicate field " ++ marked name

end Misfit

end Json

end BranchBound
