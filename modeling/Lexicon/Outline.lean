import Lexicon.Context

/-!
# Outlines

The outline of a document lists every node that compiling it visits, in the order of the visit.
References are followed as they are there; at a reference that leads nowhere, or back to a
definition under way, the outline stops. `Outline.render` writes it as lines of text.
-/

namespace Lexicon
namespace Outline

/-- A node and its address. References carry their text, but for top-level definitions. -/
structure Entry where
  address : Address
  tag : String
  reference? : Option String := none

def Entry.ofNode (d : Definition) (a : Address) : Entry :=
  match d with
  | .ref s => ⟨a, d.tag, some s.target⟩
  | _ => ⟨a, d.tag, none⟩

abbrev Follow := Context → String → Address → List Entry

section
variable (follow : Follow) (ctx : Context)

def branches (a : Address) (index : Nat) : List String → List Entry
  | [] => []
  | reference :: rest =>
    ⟨a.branch index, "ref", some reference⟩ ::
      (follow ctx reference (a.branch index) ++ branches a (index + 1) rest)

mutual

def below : Definition → Address → List Entry
  | .object s, a | .params s, a => belowObject s a
  | .array ⟨_, items, _, _⟩, a => Entry.ofNode items a.element :: below items a.element
  | .union s, a => branches follow ctx a 0 s.refs
  | .ref s, a => follow ctx s.target a
  | _, _ => []

def belowObject : ObjectShape Definition → Address → List Entry
  | ⟨_, _, _, properties⟩, a => belowProperties properties a

def belowProperties : List (String × Definition) → Address → List Entry
  | [], _ => []
  | (key, d) :: rest, a =>
    Entry.ofNode d (a.property key) :: (below d (a.property key) ++ belowProperties rest a)

end

/-- The entries below a definition that a reference leads to: a record stands for its object. -/
def belowTarget (d : Definition) (a : Address) : List Entry :=
  match d with
  | .record s => (s.record.map fun body => belowObject follow ctx body a).getD []
  | d => below follow ctx d a

def objectFacet (shape : Option (ObjectShape Definition)) (a : Address) : List Entry :=
  match shape with
  | none => []
  | some s => ⟨a, "object", none⟩ :: belowObject follow ctx s a

def schemaFacet (schema : Option Definition) (a : Address) : List Entry :=
  match schema with
  | none => []
  | some d =>
    Entry.ofNode d (a.property "schema") :: below follow ctx d (a.property "schema")

def bodyFacet (body : Option (Body Definition)) (a : Address) : List Entry :=
  schemaFacet follow ctx (body.bind Body.schema) a

def belowTop (d : Definition) (a : Address) : List Entry :=
  match d with
  | .record s => objectFacet follow ctx s.record (a.property "record")
  | .query s =>
    objectFacet follow ctx s.parameters (a.property "parameters") ++
      bodyFacet follow ctx s.output (a.property "output")
  | .procedure s =>
    objectFacet follow ctx s.parameters (a.property "parameters") ++
      bodyFacet follow ctx s.input (a.property "input") ++
      bodyFacet follow ctx s.output (a.property "output")
  | .subscription s =>
    objectFacet follow ctx s.parameters (a.property "parameters") ++
      schemaFacet follow ctx (s.message.bind Message.schema) (a.property "message")
  | d => below follow ctx d a

end

/-- Follows references that lead from one to the next at most so many times. -/
def followAt : Nat → Follow
  | 0 => fun _ _ _ => []
  | room + 1 => fun ctx reference a =>
    match ctx.lookup reference, ctx.follow? (ctx.qualify reference) with
    | .ok d, .ok (some inner) => belowTarget (followAt room) inner d a
    | _, _ => []

def Entry.line (width : Nat) (e : Entry) : String :=
  let padding := String.ofList (List.replicate (width - e.address.length) ' ')
  let arrow := match e.reference? with
    | some reference => " -> " ++ reference
    | none => ""
  e.address ++ padding ++ "  " ++ e.tag ++ arrow

/-- The column of the tags begins after the path that takes the most bytes. -/
def render (entries : List Entry) : String :=
  let width := entries.foldl (fun width e => max width e.address.utf8ByteSize) 0
  "\n".intercalate (entries.map (Entry.line width))

def Entry.toJson (e : Entry) : Json :=
  .object ([("path", .string e.address), ("type_tag", .string e.tag)] ++
    Json.text? "reference" e.reference?)

def toJson (entries : List Entry) : Json := .array (entries.map Entry.toJson)

end Outline

/-- The nodes of a document. Local references lead to the document itself, unless the dictionary
has another one with its id. A chain of references is not longer than the dictionary has
definitions, as none of them is entered twice. -/
def Document.outline (doc : Document) (dict : Dictionary) : List Outline.Entry :=
  let ctx := ({ lexicons := dict } : Context).register doc
  let follow := Outline.followAt ctx.lexicons.references.length
  doc.defs.flatMap fun (name, d) =>
    ⟨name, d.tag, none⟩ :: Outline.belowTop follow (ctx.enter ⟨doc.id.getD "", name⟩) d name

end Lexicon
