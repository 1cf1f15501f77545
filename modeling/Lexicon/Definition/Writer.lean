import Lexicon.Definition.Basic

/-!
# Writing definitions

A definition is written as an object with its fields in a fixed order and its `type` last. Fields
that are absent, empty lists and a union that is not closed are left out; the properties of an
object and the branches of a union are always written. A node that is not modelled is written as
it was read.
-/

namespace Lexicon

open Json (field? text? nat? int? texts?)

def BareShape.fields (s : BareShape) : Entries Json := text? "description" s.description

def StringShape.fields (s : StringShape) : Entries Json :=
  text? "description" s.description ++ field? "default" s.default ++ text? "format" s.format ++
    nat? "minLength" s.minLength ++ nat? "maxLength" s.maxLength ++
    texts? "knownValues" s.knownValues ++ field? "enum" (s.oneOf.map Json.strings) ++
    field? "const" s.const

def IntegerShape.fields (s : IntegerShape) : Entries Json :=
  text? "description" s.description ++ field? "default" s.default ++ int? "minimum" s.minimum ++
    int? "maximum" s.maximum ++
    field? "enum" (s.oneOf.map fun xs => .array (xs.map Json.integer)) ++ field? "const" s.const

def BooleanShape.fields (s : BooleanShape) : Entries Json :=
  text? "description" s.description ++ field? "default" s.default ++ field? "const" s.const

def BlobShape.fields (s : BlobShape) : Entries Json :=
  text? "description" s.description ++ texts? "accept" s.accept ++ nat? "maxSize" s.maxSize

def BytesShape.fields (s : BytesShape) : Entries Json :=
  text? "description" s.description ++ nat? "minLength" s.minLength ++
    nat? "maxLength" s.maxLength

def RefShape.fields (s : RefShape) : Entries Json :=
  text? "description" s.description ++ [("ref", .string s.target)]

def UnionShape.fields (s : UnionShape) : Entries Json :=
  text? "description" s.description ++ [("refs", Json.strings s.refs)] ++
    if s.closed then [("closed", .bool true)] else []

def NamedError.toJson (e : NamedError) : Json :=
  .object (("name", .string e.name) :: text? "description" e.description)

def NamedError.fieldOf (errors : List NamedError) : Entries Json :=
  if errors.isEmpty then [] else [("errors", .array (errors.map NamedError.toJson))]

namespace Definition

mutual

def toJson : Definition → Json
  | object s => .object (objectFields s ++ [("type", .string "object")])
  | params s => .object (objectFields s ++ [("type", .string "params")])
  | array s => .object (arrayFields s ++ [("type", .string "array")])
  | string s => .object (s.fields ++ [("type", .string "string")])
  | integer s => .object (s.fields ++ [("type", .string "integer")])
  | boolean s => .object (s.fields ++ [("type", .string "boolean")])
  | blob s => .object (s.fields ++ [("type", .string "blob")])
  | bytes s => .object (s.fields ++ [("type", .string "bytes")])
  | cidLink s => .object (s.fields ++ [("type", .string "cid-link")])
  | null s => .object (s.fields ++ [("type", .string "null")])
  | unknown s => .object (s.fields ++ [("type", .string "unknown")])
  | token s => .object (s.fields ++ [("type", .string "token")])
  | ref s => .object (s.fields ++ [("type", .string "ref")])
  | union s => .object (s.fields ++ [("type", .string "union")])
  | record s => .object (recordFields s ++ [("type", .string "record")])
  | query s => .object (queryFields s ++ [("type", .string "query")])
  | procedure s => .object (procedureFields s ++ [("type", .string "procedure")])
  | subscription s => .object (subscriptionFields s ++ [("type", .string "subscription")])
  | unmodelled _ body => .object body

def objectFields : ObjectShape Definition → Entries Json
  | ⟨description, required, nullable, properties⟩ =>
    text? "description" description ++ texts? "required" required ++
      texts? "nullable" nullable ++ [("properties", .object (propertyFields properties))]

def propertyFields : List (String × Definition) → Entries Json
  | [] => []
  | (key, d) :: rest => (key, d.toJson) :: propertyFields rest

def arrayFields : ArrayShape Definition → Entries Json
  | ⟨description, items, minLength, maxLength⟩ =>
    text? "description" description ++ [("items", items.toJson)] ++ nat? "minLength" minLength ++
      nat? "maxLength" maxLength

def recordFields : RecordShape Definition → Entries Json
  | ⟨description, key, body⟩ =>
    text? "description" description ++ text? "key" key ++ objectField? "record" body

def queryFields : QueryShape Definition → Entries Json
  | ⟨description, parameters, output, errors⟩ =>
    text? "description" description ++ objectField? "parameters" parameters ++
      bodyField? "output" output ++ NamedError.fieldOf errors

def procedureFields : ProcedureShape Definition → Entries Json
  | ⟨description, parameters, input, output, errors⟩ =>
    text? "description" description ++ objectField? "parameters" parameters ++
      bodyField? "input" input ++ bodyField? "output" output ++ NamedError.fieldOf errors

def subscriptionFields : SubscriptionShape Definition → Entries Json
  | ⟨description, parameters, message, errors⟩ =>
    text? "description" description ++ objectField? "parameters" parameters ++
      messageField? "message" message ++ NamedError.fieldOf errors

def objectField? (key : String) : Option (ObjectShape Definition) → Entries Json
  | none => []
  | some s => [(key, .object (objectFields s))]

def bodyField? (key : String) : Option (Body Definition) → Entries Json
  | none => []
  | some ⟨description, encoding, schema⟩ =>
    [(key, .object (text? "description" description ++ text? "encoding" encoding ++
      schemaField? schema))]

def messageField? (key : String) : Option (Message Definition) → Entries Json
  | none => []
  | some ⟨description, schema⟩ =>
    [(key, .object (text? "description" description ++ schemaField? schema))]

def schemaField? : Option Definition → Entries Json
  | none => []
  | some d => [("schema", d.toJson)]

end

def same (d e : Definition) : Bool := d.toJson.same e.toJson

end Definition
end Lexicon
