import Lexicon.Json.Printer
import Lexicon.Text.Quoted

/-!
# Values that do not fit a type

A `Mismatch` says why a JSON value is not a value of the type it is read at, and a
`DefinitionError` why it is not a definition. A definition inside another one gives a mismatch of
the outer one.
-/

namespace Lexicon

mutual

inductive Mismatch where
  | kind (found : Json) (expected : String)
  | range (found : Int) (expected : String)
  /-- An object stands for a choice but does not have exactly one key. -/
  | notOneKey
  | missingField (name : String)
  | duplicateField (name : String)
  | unknownField (name : String) (known : List String)
  | unknownChoice (name : String) (known : List String)
  | tooShort (length : Nat) (expected : String)
  | tooLong (length : Nat)
  | definition (error : DefinitionError)

inductive DefinitionError where
  | notAnObject (found : String)
  | invalid (tag : String) (reason : Mismatch)

end

/-- A value named by its kind and, where it is short, its content. -/
def Json.summary : Json → String
  | .null => "null"
  | .bool b => s!"boolean `{b}`"
  | .number (.integer n) => s!"integer `{n}`"
  | .number (.float x) => s!"floating point `{x.text .json}`"
  | .string s => "string " ++ Text.quoted s
  | .array _ => "sequence"
  | .object _ => "map"

def Mismatch.choice : List String → String
  | [] => "nothing"
  | [a] => s!"`{a}`"
  | [a, b] => s!"`{a}` or `{b}`"
  | names => "one of " ++ ", ".intercalate (names.map fun name => s!"`{name}`")

mutual

def Mismatch.message : Mismatch → String
  | .kind found expected => s!"invalid type: {found.summary}, expected {expected}"
  | .range found expected => s!"invalid value: integer `{found}`, expected {expected}"
  | .notOneKey => "invalid value: map, expected map with a single key"
  | .missingField name => s!"missing field `{name}`"
  | .unknownField name known => s!"unknown field `{name}`, expected {Mismatch.choice known}"
  | .unknownChoice name known => s!"unknown variant `{name}`, expected {Mismatch.choice known}"
  | .duplicateField name => s!"duplicate field `{name}`"
  | .tooShort length expected => s!"invalid length {length}, expected {expected}"
  | .tooLong length => s!"invalid length {length}, expected fewer elements in array"
  | .definition error => error.message

def DefinitionError.message : DefinitionError → String
  | .notAnObject found => s!"definition must be a JSON object, found {found}"
  | .invalid tag reason => s!"invalid '{tag}' definition: {reason.message}"

end
end Lexicon
