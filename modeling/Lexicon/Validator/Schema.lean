import Lexicon.Validator.Basic

/-!
# JSON Schema

The schema of a validator describes what parsing puts out, in the vocabulary of Draft 2020-12. A
tagged union is written as the `anyOf` of its branches, and numbers given as text have no
counterpart. The keywords of a kind come first, then the description and the default.
-/

namespace Lexicon

open Json (field? nat?)

namespace JsonSchema

def dialect : String := "https://json-schema.org/draft/2020-12/schema"

def typed (name : String) : Entries Json := [("type", .string name)]

def orNull (schema : Entries Json) : Entries Json :=
  [("anyOf", .array [.object schema, .object (typed "null")])]

end JsonSchema

def StringRules.schema (rules : StringRules) : Entries Json :=
  JsonSchema.typed "string" ++ nat? "minLength" rules.minLength ++
    nat? "maxLength" rules.maxLength ++ field? "enum" (rules.oneOf.map Json.strings)

def NumberRules.schema (rules : NumberRules) : Entries Json :=
  JsonSchema.typed (if rules.whole then "integer" else "number") ++
    field? "minimum" (rules.minimum.map Json.float) ++
    field? "maximum" (rules.maximum.map Json.float) ++
    field? "enum" (rules.oneOf.map fun xs => .array (xs.map Json.float))

def requiredKeys (fields : Entries Validator) : List String :=
  Entries.keys (fields.filter fun e => !e.2.acceptsMissing)

mutual

def Validator.schema : Validator → Entries Json
  | ⟨kind, _, nullable, default, description⟩ =>
    (if nullable then JsonSchema.orNull kind.schema else kind.schema) ++
      field? "description" (description.map Json.string) ++ field? "default" default

def Kind.schema : Kind Validator → Entries Json
  | .any | .unknown => []
  | .never => [("not", .object [])]
  | .null => JsonSchema.typed "null"
  | .boolean => JsonSchema.typed "boolean"
  | .string rules => rules.schema
  | .number rules => rules.schema
  | .literal expected => [("const", expected)]
  | .array items minItems maxItems =>
    JsonSchema.typed "array" ++ [("items", .object items.schema)] ++ nat? "minItems" minItems ++
      nat? "maxItems" maxItems
  | .object fields =>
    JsonSchema.typed "object" ++ [("properties", Json.ofEntries (fieldSchemas fields))] ++
      match requiredKeys fields with
      | [] => []
      | keys => [("required", Json.strings keys)]
  | .union branches => [("anyOf", .array (branchSchemas branches))]
  | .tagged _ branches _ => [("anyOf", .array (taggedSchemas branches))]

def fieldSchemas : List (String × Validator) → Entries Json
  | [] => []
  | (key, v) :: rest => (key, .object v.schema) :: fieldSchemas rest

def branchSchemas : List Validator → List Json
  | [] => []
  | v :: rest => .object v.schema :: branchSchemas rest

def taggedSchemas : List (String × Validator) → List Json
  | [] => []
  | (_, v) :: rest => .object v.schema :: taggedSchemas rest

end

def Validator.toJsonSchema (v : Validator) : Json :=
  .object (v.schema ++ [("$schema", .string JsonSchema.dialect)])

end Lexicon
