import Lexicon.Compile.Node

/-!
# Compiling envelopes

Records, queries, procedures and subscriptions compile to a validator for each of their facets.
A facet has its own address below the definition and is mandatory; one that is not declared or is
omitted accepts nothing.
-/

namespace Lexicon

structure BodyFacets where
  encoding : Validator
  schema : Validator

def BodyFacets.never : BodyFacets := ⟨.never, .never⟩

inductive Compiled where
  | schema (v : Validator)
  | record (key record : Validator)
  | query (parameters : Validator) (output : BodyFacets) (errors : Validator)
  | procedure (parameters : Validator) (input output : BodyFacets) (errors : Validator)
  | subscription (parameters message errors : Validator)

def Compiled.kind : Compiled → String
  | schema _ => "schema"
  | record _ _ => "record"
  | query _ _ _ => "query"
  | procedure _ _ _ _ => "procedure"
  | subscription _ _ _ => "subscription"

def literalOrNever (declared : Option String) : Validator :=
  match declared with
  | some s => .literal (.string s)
  | none => .never

def NamedError.validator (errors : List NamedError) : Validator :=
  if errors.isEmpty then .never else Validator.string.oneOfStrings (errors.map NamedError.name)

namespace Compile

section
variable (apply : Apply) (ctx : Context)

def objectFacetWith (shape : Option (ObjectShape Definition)) (a : Address) :
    Compile Validator := do
  match shape with
  | none => return .never
  | some s =>
    match ← override? a with
    | some .omit => return .never
    | some (.replace v) => return v
    | none =>
      markRequired a
      let v ← apply (← ctx.registry.require "object") ctx (.object s) a
      extend v s.description none a

def schemaFacetWith (schema : Option Definition) (a : Address) : Compile Validator := do
  match schema with
  | none => return .never
  | some d =>
    requireNode a
    return (← nodeWith apply ctx d a).getD .never

def bodyFacetsWith (body : Option (Body Definition)) (a : Address) : Compile BodyFacets := do
  match body with
  | none => return .never
  | some b =>
    return ⟨literalOrNever b.encoding, ← schemaFacetWith apply ctx b.schema (a.property "schema")⟩

def messageFacetWith (message : Option (Message Definition)) (a : Address) : Compile Validator :=
  schemaFacetWith apply ctx (message.bind Message.schema) (a.property "schema")

/-- The facets of an envelope; other definitions have none. -/
def envelopeWith (d : Definition) (a : Address) : Compile (Option Compiled) := do
  match d with
  | .record s =>
    return some (.record (literalOrNever s.key)
      (← objectFacetWith apply ctx s.record (a.property "record")))
  | .query s =>
    let parameters ← objectFacetWith apply ctx s.parameters (a.property "parameters")
    let output ← bodyFacetsWith apply ctx s.output (a.property "output")
    return some (.query parameters output (NamedError.validator s.errors))
  | .procedure s =>
    let parameters ← objectFacetWith apply ctx s.parameters (a.property "parameters")
    let input ← bodyFacetsWith apply ctx s.input (a.property "input")
    let output ← bodyFacetsWith apply ctx s.output (a.property "output")
    return some (.procedure parameters input output (NamedError.validator s.errors))
  | .subscription s =>
    let parameters ← objectFacetWith apply ctx s.parameters (a.property "parameters")
    let message ← messageFacetWith apply ctx s.message (a.property "message")
    return some (.subscription parameters message (NamedError.validator s.errors))
  | _ => return none

def definitionWith (d : Definition) (a : Address) : Compile Compiled := do
  match ← envelopeWith apply ctx d a with
  | some c => return c
  | none => return .schema (← extendedWith apply ctx d a)

end
end Compile

namespace Context
variable (ctx : Context) (d : Definition) (a : Address)

def compileEnvelope : Compile (Option Compiled) :=
  Compile.envelopeWith (Compile.compileAt (ctx.depth d)) ctx d a

def compileDefinition : Compile Compiled :=
  Compile.definitionWith (Compile.compileAt (ctx.depth d)) ctx d a

end Context
end Lexicon
