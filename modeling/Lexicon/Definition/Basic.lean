import Lexicon.Json.Basic

/-!
# Definitions

A definition is a node of a Lexicon document. Its `type` tag says which kind of node it is; a tag
that is not modelled leaves the node as it was written. Nodes inside a node are definitions
themselves, so the records that describe a node take the type of its inner nodes as a parameter.
-/

namespace Lexicon

/-- A node of which only a description is known: `cid-link`, `null`, `unknown`, `token`. -/
structure BareShape where
  description : Option String := none

/-- An `object` or `params` node. -/
structure ObjectShape (δ : Type) where
  description : Option String := none
  required : List String := []
  nullable : List String := []
  properties : List (String × δ) := []

structure ArrayShape (δ : Type) where
  description : Option String := none
  items : δ
  minLength : Option Nat := none
  maxLength : Option Nat := none

structure StringShape where
  description : Option String := none
  default : Option Json := none
  format : Option String := none
  minLength : Option Nat := none
  maxLength : Option Nat := none
  /-- Suggested values, for information only. -/
  knownValues : List String := []
  oneOf : Option (List String) := none
  const : Option Json := none

structure IntegerShape where
  description : Option String := none
  default : Option Json := none
  minimum : Option Int := none
  maximum : Option Int := none
  oneOf : Option (List Int) := none
  const : Option Json := none

structure BooleanShape where
  description : Option String := none
  default : Option Json := none
  const : Option Json := none

structure BlobShape where
  description : Option String := none
  accept : List String := []
  maxSize : Option Nat := none

structure BytesShape where
  description : Option String := none
  minLength : Option Nat := none
  maxLength : Option Nat := none

structure RefShape where
  description : Option String := none
  target : String

structure UnionShape where
  description : Option String := none
  refs : List String := []
  /-- Only the listed branches are members. -/
  closed : Bool := false

structure RecordShape (δ : Type) where
  description : Option String := none
  key : Option String := none
  record : Option (ObjectShape δ) := none

structure Body (δ : Type) where
  description : Option String := none
  encoding : Option String := none
  schema : Option δ := none

structure Message (δ : Type) where
  description : Option String := none
  schema : Option δ := none

structure NamedError where
  name : String
  description : Option String := none

structure QueryShape (δ : Type) where
  description : Option String := none
  parameters : Option (ObjectShape δ) := none
  output : Option (Body δ) := none
  errors : List NamedError := []

structure ProcedureShape (δ : Type) where
  description : Option String := none
  parameters : Option (ObjectShape δ) := none
  input : Option (Body δ) := none
  output : Option (Body δ) := none
  errors : List NamedError := []

structure SubscriptionShape (δ : Type) where
  description : Option String := none
  parameters : Option (ObjectShape δ) := none
  message : Option (Message δ) := none
  errors : List NamedError := []

inductive Definition where
  | object (shape : ObjectShape Definition)
  | params (shape : ObjectShape Definition)
  | array (shape : ArrayShape Definition)
  | string (shape : StringShape)
  | integer (shape : IntegerShape)
  | boolean (shape : BooleanShape)
  | blob (shape : BlobShape)
  | bytes (shape : BytesShape)
  | cidLink (shape : BareShape)
  | null (shape : BareShape)
  | unknown (shape : BareShape)
  | token (shape : BareShape)
  | ref (shape : RefShape)
  | union (shape : UnionShape)
  | record (shape : RecordShape Definition)
  | query (shape : QueryShape Definition)
  | procedure (shape : ProcedureShape Definition)
  | subscription (shape : SubscriptionShape Definition)
  /-- A node whose tag is not modelled, with all its fields. -/
  | unmodelled (tag : String) (body : List (String × Json))

instance : Inhabited Definition := ⟨.unmodelled "" []⟩

namespace Definition

def tag : Definition → String
  | object _ => "object"
  | params _ => "params"
  | array _ => "array"
  | string _ => "string"
  | integer _ => "integer"
  | boolean _ => "boolean"
  | blob _ => "blob"
  | bytes _ => "bytes"
  | cidLink _ => "cid-link"
  | null _ => "null"
  | unknown _ => "unknown"
  | token _ => "token"
  | ref _ => "ref"
  | union _ => "union"
  | record _ => "record"
  | query _ => "query"
  | procedure _ => "procedure"
  | subscription _ => "subscription"
  | unmodelled tag _ => tag

/-- Records, queries, procedures and subscriptions describe whole exchanges rather than a value. -/
def isPrimary : Definition → Bool
  | record _ | query _ | procedure _ | subscription _ => true
  | _ => false

def isUnmodelled : Definition → Bool
  | unmodelled _ _ => true
  | _ => false

def description : Definition → Option String
  | object s | params s => s.description
  | array s => s.description
  | string s => s.description
  | integer s => s.description
  | boolean s => s.description
  | blob s => s.description
  | bytes s => s.description
  | cidLink s | null s | unknown s | token s => s.description
  | ref s => s.description
  | union s => s.description
  | record s => s.description
  | query s => s.description
  | procedure s => s.description
  | subscription s => s.description
  | unmodelled _ body => (Entries.find? body "description").bind Json.string?

/-- The declared default. In a node that is not modelled even null is one. -/
def default? : Definition → Option Json
  | string s => s.default
  | integer s => s.default
  | boolean s => s.default
  | unmodelled _ body => Entries.find? body "default"
  | _ => none

mutual

/-- The number of nodes in a definition. A union counts its references as one node, and a node that
is not modelled counts its whole body. -/
def weight : Definition → Nat
  | object s | params s => 1 + weightObject s
  | array ⟨_, items, _, _⟩ => 1 + items.weight
  | record ⟨_, _, body⟩ => 1 + weightObject? body
  | query ⟨_, parameters, output, _⟩ => 1 + weightObject? parameters + weightBody? output
  | procedure ⟨_, parameters, input, output, _⟩ =>
    1 + weightObject? parameters + weightBody? input + weightBody? output
  | subscription ⟨_, parameters, message, _⟩ =>
    1 + weightObject? parameters + weightMessage? message
  | union _ => 2
  | unmodelled _ body => 1 + Json.weightFields body
  | _ => 1

def weightObject : ObjectShape Definition → Nat
  | ⟨_, _, _, properties⟩ => 1 + weightProperties properties

def weightObject? : Option (ObjectShape Definition) → Nat
  | none => 0
  | some s => weightObject s

def weightBody? : Option (Body Definition) → Nat
  | none => 0
  | some ⟨_, _, none⟩ => 0
  | some ⟨_, _, some schema⟩ => schema.weight

def weightMessage? : Option (Message Definition) → Nat
  | none => 0
  | some ⟨_, none⟩ => 0
  | some ⟨_, some schema⟩ => schema.weight

def weightProperties : List (String × Definition) → Nat
  | [] => 0
  | (_, d) :: rest => d.weight + weightProperties rest

end

end Definition
end Lexicon
