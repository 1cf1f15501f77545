import Lexicon.Definition.Writer
import Lexicon.Typed

/-!
# Reading definitions

The `type` of an object decides which record its fields are read as. A reader of a record takes
the reader `inner` of the definitions inside it, and `ofJson` ties the knot: it reads inner
definitions the way it reads the outer one.
-/

namespace Lexicon

abbrev ReadInner := Json → Except DefinitionError Definition

/-- A failure to read an inner definition is a mismatch of the outer one. -/
def ReadInner.read (inner : ReadInner) : Read Definition := fun x =>
  (inner x).mapError .definition

open Read (optional)

def BareShape.reader : FieldReader BareShape where
  name := "struct BareDef"
  fields := ["description"]
  blank := {}
  read s key x :=
    match key with
    | "description" => return { s with description := ← optional Read.string x }
    | _ => return s

def ObjectShape.reader (inner : ReadInner) : FieldReader (ObjectShape Definition) where
  name := "struct ObjectDef"
  fields := ["description", "required", "nullable", "properties"]
  blank := {}
  read s key x :=
    match key with
    | "description" => return { s with description := ← optional Read.string x }
    | "required" => return { s with required := ← Read.list Read.string x }
    | "nullable" => return { s with nullable := ← Read.list Read.string x }
    | "properties" => return { s with properties := ← Read.entries inner.read x }
    | _ => return s

/-- The items of an array are there once all fields are read. -/
def ArrayShape.reader (inner : ReadInner) : FieldReader (ArrayShape (Option Definition)) where
  name := "struct ArrayDef"
  fields := ["description", "items", "minLength", "maxLength"]
  blank := { items := none }
  read s key x :=
    match key with
    | "description" => return { s with description := ← optional Read.string x }
    | "items" => return { s with items := some (← inner.read x) }
    | "minLength" => return { s with minLength := ← optional Read.size x }
    | "maxLength" => return { s with maxLength := ← optional Read.size x }
    | _ => return s

def ArrayShape.ofFields (inner : ReadInner) (fields : Entries Json) :
    Except Mismatch (ArrayShape Definition) := do
  let s ← (reader inner).ofFields fields
  match s.items with
  | none => throw (.missingField "items")
  | some items => return ⟨s.description, items, s.minLength, s.maxLength⟩

def StringShape.reader : FieldReader StringShape where
  name := "struct StringDef"
  fields := ["description", "default", "format", "minLength", "maxLength", "knownValues", "enum",
    "const"]
  blank := {}
  read s key x :=
    match key with
    | "description" => return { s with description := ← optional Read.string x }
    | "default" => return { s with default := ← optional Read.any x }
    | "format" => return { s with format := ← optional Read.string x }
    | "minLength" => return { s with minLength := ← optional Read.size x }
    | "maxLength" => return { s with maxLength := ← optional Read.size x }
    | "knownValues" => return { s with knownValues := ← Read.list Read.string x }
    | "enum" => return { s with oneOf := ← optional (Read.list Read.string) x }
    | "const" => return { s with const := ← optional Read.any x }
    | _ => return s

def IntegerShape.reader : FieldReader IntegerShape where
  name := "struct IntegerDef"
  fields := ["description", "default", "minimum", "maximum", "enum", "const"]
  blank := {}
  read s key x :=
    match key with
    | "description" => return { s with description := ← optional Read.string x }
    | "default" => return { s with default := ← optional Read.any x }
    | "minimum" => return { s with minimum := ← optional Read.int64 x }
    | "maximum" => return { s with maximum := ← optional Read.int64 x }
    | "enum" => return { s with oneOf := ← optional (Read.list Read.int64) x }
    | "const" => return { s with const := ← optional Read.any x }
    | _ => return s

def BooleanShape.reader : FieldReader BooleanShape where
  name := "struct BooleanDef"
  fields := ["description", "default", "const"]
  blank := {}
  read s key x :=
    match key with
    | "description" => return { s with description := ← optional Read.string x }
    | "default" => return { s with default := ← optional Read.any x }
    | "const" => return { s with const := ← optional Read.any x }
    | _ => return s

def BlobShape.reader : FieldReader BlobShape where
  name := "struct BlobDef"
  fields := ["description", "accept", "maxSize"]
  blank := {}
  read s key x :=
    match key with
    | "description" => return { s with description := ← optional Read.string x }
    | "accept" => return { s with accept := ← Read.list Read.string x }
    | "maxSize" => return { s with maxSize := ← optional Read.word64 x }
    | _ => return s

def BytesShape.reader : FieldReader BytesShape where
  name := "struct BytesDef"
  fields := ["description", "minLength", "maxLength"]
  blank := {}
  read s key x :=
    match key with
    | "description" => return { s with description := ← optional Read.string x }
    | "minLength" => return { s with minLength := ← optional Read.size x }
    | "maxLength" => return { s with maxLength := ← optional Read.size x }
    | _ => return s

def RefShape.reader : FieldReader (Option String × Option String) where
  name := "struct RefDef"
  fields := ["description", "ref"]
  blank := (none, none)
  read s key x :=
    match key with
    | "description" => return (← optional Read.string x, s.2)
    | "ref" => return (s.1, some (← Read.string x))
    | _ => return s

def RefShape.ofFields (fields : Entries Json) : Except Mismatch RefShape := do
  match ← reader.ofFields fields with
  | (_, none) => throw (.missingField "ref")
  | (description, some target) => return ⟨description, target⟩

def UnionShape.reader : FieldReader UnionShape where
  name := "struct UnionDef"
  fields := ["description", "refs", "closed"]
  blank := {}
  read s key x :=
    match key with
    | "description" => return { s with description := ← optional Read.string x }
    | "refs" => return { s with refs := ← Read.list Read.string x }
    | "closed" => return { s with closed := ← Read.bool x }
    | _ => return s

def RecordShape.reader (inner : ReadInner) : FieldReader (RecordShape Definition) where
  name := "struct RecordDef"
  fields := ["description", "key", "record"]
  blank := {}
  read s key x :=
    match key with
    | "description" => return { s with description := ← optional Read.string x }
    | "key" => return { s with key := ← optional Read.string x }
    | "record" => return { s with record := ← optional (ObjectShape.reader inner).ofJson x }
    | _ => return s

def Body.reader (inner : ReadInner) : FieldReader (Body Definition) where
  name := "struct BodyDef"
  fields := ["description", "encoding", "schema"]
  blank := {}
  read s key x :=
    match key with
    | "description" => return { s with description := ← optional Read.string x }
    | "encoding" => return { s with encoding := ← optional Read.string x }
    | "schema" => return { s with schema := ← optional inner.read x }
    | _ => return s

def Message.reader (inner : ReadInner) : FieldReader (Message Definition) where
  name := "struct MessageDef"
  fields := ["description", "schema"]
  blank := {}
  read s key x :=
    match key with
    | "description" => return { s with description := ← optional Read.string x }
    | "schema" => return { s with schema := ← optional inner.read x }
    | _ => return s

def NamedError.reader : FieldReader (Option String × Option String) where
  name := "struct ErrorDef"
  fields := ["name", "description"]
  blank := (none, none)
  read s key x :=
    match key with
    | "name" => return (some (← Read.string x), s.2)
    | "description" => return (s.1, ← optional Read.string x)
    | _ => return s

/-- An error without a name is refused, in the words for an object or for an array. -/
def NamedError.ofJson : Read NamedError := fun x => do
  match ← reader.ofJson x, x with
  | (some name, description), _ => return ⟨name, description⟩
  | (none, _), .array _ => throw (.tooShort 0 "struct ErrorDef with 2 elements")
  | (none, _), _ => throw (.missingField "name")

def QueryShape.reader (inner : ReadInner) : FieldReader (QueryShape Definition) where
  name := "struct QueryDef"
  fields := ["description", "parameters", "output", "errors"]
  blank := {}
  read s key x :=
    match key with
    | "description" => return { s with description := ← optional Read.string x }
    | "parameters" =>
      return { s with parameters := ← optional (ObjectShape.reader inner).ofJson x }
    | "output" => return { s with output := ← optional (Body.reader inner).ofJson x }
    | "errors" => return { s with errors := ← Read.list NamedError.ofJson x }
    | _ => return s

def ProcedureShape.reader (inner : ReadInner) : FieldReader (ProcedureShape Definition) where
  name := "struct ProcedureDef"
  fields := ["description", "parameters", "input", "output", "errors"]
  blank := {}
  read s key x :=
    match key with
    | "description" => return { s with description := ← optional Read.string x }
    | "parameters" =>
      return { s with parameters := ← optional (ObjectShape.reader inner).ofJson x }
    | "input" => return { s with input := ← optional (Body.reader inner).ofJson x }
    | "output" => return { s with output := ← optional (Body.reader inner).ofJson x }
    | "errors" => return { s with errors := ← Read.list NamedError.ofJson x }
    | _ => return s

def SubscriptionShape.reader (inner : ReadInner) :
    FieldReader (SubscriptionShape Definition) where
  name := "struct SubscriptionDef"
  fields := ["description", "parameters", "message", "errors"]
  blank := {}
  read s key x :=
    match key with
    | "description" => return { s with description := ← optional Read.string x }
    | "parameters" =>
      return { s with parameters := ← optional (ObjectShape.reader inner).ofJson x }
    | "message" => return { s with message := ← optional (Message.reader inner).ofJson x }
    | "errors" => return { s with errors := ← Read.list NamedError.ofJson x }
    | _ => return s

namespace Definition

/-- The `type` of an object. One that is absent or no text counts as empty. -/
def tagOf (fields : Entries Json) : String :=
  ((Entries.find? fields "type").bind Json.string?).getD ""

def ofFields (inner : ReadInner) (tag : String) (fields : Entries Json) :
    Except Mismatch Definition :=
  match tag with
  | "object" => object <$> (ObjectShape.reader inner).ofFields fields
  | "params" => params <$> (ObjectShape.reader inner).ofFields fields
  | "array" => array <$> ArrayShape.ofFields inner fields
  | "string" => string <$> StringShape.reader.ofFields fields
  | "integer" => integer <$> IntegerShape.reader.ofFields fields
  | "boolean" => boolean <$> BooleanShape.reader.ofFields fields
  | "blob" => blob <$> BlobShape.reader.ofFields fields
  | "bytes" => bytes <$> BytesShape.reader.ofFields fields
  | "cid-link" => cidLink <$> BareShape.reader.ofFields fields
  | "null" => null <$> BareShape.reader.ofFields fields
  | "unknown" => unknown <$> BareShape.reader.ofFields fields
  | "token" => token <$> BareShape.reader.ofFields fields
  | "ref" => ref <$> RefShape.ofFields fields
  | "union" => union <$> UnionShape.reader.ofFields fields
  | "record" => record <$> (RecordShape.reader inner).ofFields fields
  | "query" => query <$> (QueryShape.reader inner).ofFields fields
  | "procedure" => procedure <$> (ProcedureShape.reader inner).ofFields fields
  | "subscription" => subscription <$> (SubscriptionShape.reader inner).ofFields fields
  | tag => .ok (unmodelled tag fields)

def ofJsonWith (inner : ReadInner) : Json → Except DefinitionError Definition
  | .object fields =>
    let tag := tagOf fields
    (ofFields inner tag fields).mapError (.invalid tag)
  | found => .error (.notAnObject found.kind)

/-- Reads a definition whose values nest less than `depth` deep. -/
def ofJsonAt : Nat → Json → Except DefinitionError Definition
  | 0, x => .error (.notAnObject x.kind)
  | depth + 1, x => ofJsonWith (ofJsonAt depth) x

def ofJson (x : Json) : Except DefinitionError Definition := ofJsonAt x.weight x

/-- Reads the fields of a definition again, as a record of another kind. The mismatch names the
tag of the definition. -/
def reread {σ : Type} (d : Definition) (read : Entries Json → Except Mismatch σ) :
    Except DefinitionError σ :=
  match d.toJson with
  | .object fields => (read fields).mapError (.invalid d.tag)
  | found => .error (.notAnObject found.kind)

end Definition
end Lexicon
