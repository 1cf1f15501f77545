import Lexicon.Compile.Document
import Lexicon.Validator.Schema

/-!
# What is taken out of compiled documents

A compiled definition has a validator for each of its facets, of which one can be chosen. A compiled
document is exported as JSON Schemas, one for each definition or facet, or as a summary with a line
for each definition.
-/

namespace Lexicon

namespace Compiled

/-- The validators by the name of their facet. A plain definition has one facet without a
name. -/
def facets : Compiled → Entries Validator
  | schema v => [("", v)]
  | record key body => [("key", key), ("record", body)]
  | query parameters output errors => [
      ("parameters", parameters),
      ("output.encoding", output.encoding),
      ("output.schema", output.schema),
      ("errors", errors)]
  | procedure parameters input output errors => [
      ("parameters", parameters),
      ("input.encoding", input.encoding),
      ("input.schema", input.schema),
      ("output.encoding", output.encoding),
      ("output.schema", output.schema),
      ("errors", errors)]
  | subscription parameters message errors => [
      ("parameters", parameters),
      ("message.schema", message),
      ("errors", errors)]

def facet? (c : Compiled) (name : String) : Option Validator := c.facets.find? name

def facetList (c : Compiled) : String := ", ".intercalate c.facets.keys

end Compiled

inductive FacetError where
  /-- The kind of definition has no facet of its own to choose. -/
  | unnamed (c : Compiled)
  | unknown (c : Compiled) (name : String)

def FacetError.message : FacetError → String
  | unnamed c =>
    s!"{c.kind} definitions need --facet (one of: {c.facetList})"
  | unknown c name =>
    s!"{c.kind} definition has no facet '{name}' (available: {c.facetList})"

/-- The validator of a facet. Without a name it is the one of a plain definition, or the body of a
record. -/
def Compiled.select (c : Compiled) (facet : Option String) : Except FacetError Validator :=
  let named (name : String) : Except FacetError Validator :=
    match c.facet? name with
    | some v => .ok v
    | none => .error (.unknown c name)
  match facet, c with
  | some name, _ => named name
  | none, .schema _ => named ""
  | none, .record _ _ => named "record"
  | none, c => .error (.unnamed c)

def Compiled.jsonSchema : Compiled → Json
  | .schema v => v.toJsonSchema
  | c => .object (c.facets.mapValues Validator.toJsonSchema)

def CompiledLexicon.jsonSchema (c : CompiledLexicon) : Json :=
  .object (c.defs.mapValues Compiled.jsonSchema)

def Compiled.summaryLine (name : String) (c : Compiled) : String :=
  match c.facets.keys.filter (!·.isEmpty) with
  | [] => s!"  {name}: {c.kind}"
  | facets => s!"  {name}: {c.kind} [" ++ ", ".intercalate facets ++ "]"

def CompiledLexicon.summary (c : CompiledLexicon) : String :=
  let id := c.id.getD "<anonymous>"
  "\n".intercalate (s!"{id} ({c.defs.length} definitions)" ::
    c.defs.map fun e => e.2.summaryLine e.1)

end Lexicon
