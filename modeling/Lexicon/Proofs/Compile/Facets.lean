import Lexicon.Compile.Export
import Lexicon.Proofs.Address
import Lexicon.Proofs.Compile.Builtin
import Lexicon.Proofs.Compile.Consults

/-!
# Facets

The facets of an envelope are nodes below it, each under a name of its own (`Definition.slots`), and
are compiled one after the other (`envelopeWith_eq`). Like other nodes they can be replaced, and
they are mandatory (`objectFacetWith_eq_schemaFacetWith`).
-/

namespace Lexicon

namespace Definition

def slots : Definition → List (String × Option Definition)
  | record s => [("record", s.record.map object)]
  | query s => [("parameters", s.parameters.map object), ("output.schema", s.output.bind Body.schema)]
  | procedure s => [
      ("parameters", s.parameters.map object),
      ("input.schema", s.input.bind Body.schema),
      ("output.schema", s.output.bind Body.schema)]
  | subscription s => [
      ("parameters", s.parameters.map object),
      ("message.schema", s.message.bind Message.schema)]
  | _ => []

def bodyFacets (body : Option (Body Definition)) (schema : Validator) : BodyFacets :=
  match body with
  | none => .never
  | some b => ⟨literalOrNever b.encoding, schema⟩

def envelope (d : Definition) (vs : Entries Validator) : Option Compiled :=
  let facet name := (vs.find? name).getD .never
  match d with
  | record s => some (.record (literalOrNever s.key) (facet "record"))
  | query s => some (.query (facet "parameters") (bodyFacets s.output (facet "output.schema"))
      (NamedError.validator s.errors))
  | procedure s => some (.procedure (facet "parameters")
      (bodyFacets s.input (facet "input.schema")) (bodyFacets s.output (facet "output.schema"))
      (NamedError.validator s.errors))
  | subscription s => some (.subscription (facet "parameters") (facet "message.schema")
      (NamedError.validator s.errors))
  | _ => none

variable {d : Definition}

theorem mem_slots {name : String} {e : Definition} (h : (name, some e) ∈ d.slots) :
    (∃ s ∈ d.shapes, e = object s) ∨ e ∈ d.nodes := by
  have hobject : ∀ {shape : Option (ObjectShape Definition)},
      some e = shape.map object → ∃ s ∈ shape.toList, e = object s := by
    intro shape hshape
    obtain ⟨s, rfl, rfl⟩ := Option.map_eq_some_iff.mp hshape.symm
    exact ⟨s, Option.mem_toList.mpr rfl, rfl⟩
  cases d with
  | record s =>
    obtain ⟨-, hshape⟩ := Prod.mk.inj (List.mem_singleton.mp h)
    exact .inl (hobject hshape)
  | query s =>
    simp only [slots, List.mem_cons, Prod.mk.injEq, List.not_mem_nil, or_false] at h
    rcases h with ⟨-, hshape⟩ | ⟨-, hschema⟩
    · exact .inl (hobject hshape)
    · exact .inr (Option.mem_toList.mpr hschema.symm)
  | procedure s =>
    simp only [slots, List.mem_cons, Prod.mk.injEq, List.not_mem_nil, or_false] at h
    rcases h with ⟨-, hshape⟩ | ⟨-, hschema⟩ | ⟨-, hschema⟩
    · exact .inl (hobject hshape)
    · exact .inr (List.mem_append_left _ (Option.mem_toList.mpr hschema.symm))
    · exact .inr (List.mem_append_right _ (Option.mem_toList.mpr hschema.symm))
  | subscription s =>
    simp only [slots, List.mem_cons, Prod.mk.injEq, List.not_mem_nil, or_false] at h
    rcases h with ⟨-, hshape⟩ | ⟨-, hschema⟩
    · exact .inl (hobject hshape)
    · exact .inr (Option.mem_toList.mpr hschema.symm)
  | _ => exact nomatch h

/-- What holds of all parts of an envelope holds of the nodes of its facets. -/
theorem All.slot {P : Definition → Prop} (hshape : ∀ {d s}, P d → s ∈ d.shapes → P (object s))
    (h : d.All P) {name : String} {e : Definition} (he : (name, some e) ∈ d.slots) : e.All P := by
  rcases mem_slots he with ⟨s, hs, rfl⟩ | he
  · exact h.shape hs (hshape h.here hs)
  · exact h.inside (mem_parts.mpr (.inr he))

theorem exists_envelope (hprimary : d.isPrimary = true) :
    ∃ c : Entries Validator → Compiled, ∀ vs, d.envelope vs = some (c vs) := by
  cases d <;> first | exact ⟨_, fun _ => rfl⟩ | exact nomatch hprimary

theorem facet?_of_envelope {vs : Entries Validator} {c : Compiled} {name : String} {e : Definition}
    {v : Validator} (hslot : (name, some e) ∈ d.slots) (hv : vs.find? name = some v)
    (hc : d.envelope vs = some c) : c.facet? name = some v := by
  have hbody : ∀ {body : Option (Body Definition)} {w : Validator},
      body.bind Body.schema = some e → (bodyFacets body w).schema = w := by
    intro body w hschema
    cases body with
    | none => exact nomatch hschema
    | some b => rfl
  have hfacet : (vs.find? name).getD .never = v := by rw [hv, Option.getD_some]
  cases d with
  | record s =>
    obtain ⟨rfl, -⟩ := Prod.mk.inj (List.mem_singleton.mp hslot)
    cases hc
    exact congrArg some hfacet
  | query s =>
    simp only [slots, List.mem_cons, Prod.mk.injEq, List.not_mem_nil, or_false] at hslot
    cases hc
    rcases hslot with ⟨rfl, -⟩ | ⟨rfl, hschema⟩
    · exact congrArg some hfacet
    · exact congrArg some ((hbody hschema.symm).trans hfacet)
  | procedure s =>
    simp only [slots, List.mem_cons, Prod.mk.injEq, List.not_mem_nil, or_false] at hslot
    cases hc
    rcases hslot with ⟨rfl, -⟩ | ⟨rfl, hschema⟩ | ⟨rfl, hschema⟩
    · exact congrArg some hfacet
    · exact congrArg some ((hbody hschema.symm).trans hfacet)
    · exact congrArg some ((hbody hschema.symm).trans hfacet)
  | subscription s =>
    simp only [slots, List.mem_cons, Prod.mk.injEq, List.not_mem_nil, or_false] at hslot
    cases hc
    rcases hslot with ⟨rfl, -⟩ | ⟨rfl, -⟩
    · exact congrArg some hfacet
    · exact congrArg some hfacet
  | _ => exact nomatch hc

/-- The names of the facets of an envelope begin with different parts. -/
theorem slots_apart (d : Definition) :
    d.slots.Pairwise fun x y => x.1.toList.takeWhile (· ≠ '.') ≠ y.1.toList.takeWhile (· ≠ '.') := by
  cases d <;> simp [slots]

end Definition

namespace Compile

variable {apply : Apply} {ctx : Context} {a : Address}

/-- A facet is made mandatory first, unless something stands in its place. -/
theorem objectFacetWith_some (apply : Apply) (ctx : Context) (s : ObjectShape Definition)
    (a : Address) :
    objectFacetWith apply ctx (some s) a = (do
      requireNode a
      match ← override? a with
      | some .omit => return .never
      | some (.replace v) => return v
      | none =>
        let v ← apply (← ctx.registry.require "object") ctx (.object s) a
        extend v s.description none a) := by
  funext t
  change (override? a >>= _ : Compile Validator).runOn t = (requireNode a >>= _).runOn t
  unfold requireNode
  rw [runOn_bind_of_ok (runOn_override? a), bind_assoc, runOn_bind_of_ok (runOn_override? a)]
  cases hoverride : t.options.override? a with
  | some o =>
    rw [Option.isNone_some, if_neg Bool.false_ne_true, pure_bind,
      runOn_bind_of_ok (runOn_override? a), hoverride]
    cases o <;> rfl
  | none =>
    have hmarked : (t.options.markRequired a).override? a = none := by
      rw [← hoverride]
      exact (getD_markRequired t.options a a).2
    rw [Option.isNone_none, if_pos rfl, runOn_bind_of_ok (runOn_markRequired a),
      runOn_bind_of_ok (runOn_markRequired a), runOn_bind_of_ok (runOn_override? a), hmarked]

/-- An object in a facet is compiled as any other definition there. -/
theorem objectFacetWith_eq_schemaFacetWith (hctx : ctx.Equipped)
    (shape : Option (ObjectShape Definition)) :
    objectFacetWith apply ctx shape a = schemaFacetWith apply ctx (shape.map .object) a := by
  cases shape with
  | none => rfl
  | some s =>
    have hnode : nodeWith apply ctx (.object s) a = (do
        match ← override? a with
        | some .omit => return none
        | some (.replace v) => return some v
        | none =>
          let v ← apply (← ctx.registry.require "object") ctx (.object s) a
          return some (← extend v s.description none a)) := by
      simp only [← bind_assoc, apply_object_eq hctx]
      rfl
    rw [objectFacetWith_some, Option.map_some, schemaFacetWith, hnode, bind_assoc]
    congr
    funext _
    congr
    funext o
    rcases o with _ | _ | v
    · simp only [bind_assoc, pure_bind, Option.getD_some, bind_pure]
    · rfl
    · rfl

def facetsWith (apply : Apply) (ctx : Context) (a : Address) :
    List (String × Option Definition) → Compile (Entries Validator)
  | [] => return []
  | (name, schema) :: rest => do
    let v ← schemaFacetWith apply ctx schema (a.property name)
    return (name, v) :: (← facetsWith apply ctx a rest)

theorem bodyFacetsWith_eq {key : String} (hkey : key ≠ "") (body : Option (Body Definition)) :
    bodyFacetsWith apply ctx body (a.property key) = (do
      let v ← schemaFacetWith apply ctx (body.bind Body.schema) (a.property (key ++ "." ++ "schema"))
      return Definition.bodyFacets body v) := by
  rw [← Address.property_property hkey]
  cases body <;> rfl

theorem envelopeWith_eq (hctx : ctx.Equipped) (a : Address) (d : Definition) :
    envelopeWith apply ctx d a = (do return d.envelope (← facetsWith apply ctx a d.slots)) := by
  cases d with
  | record s =>
    simp only [envelopeWith, objectFacetWith_eq_schemaFacetWith hctx, Definition.slots,
      facetsWith, bind_assoc, pure_bind]
    rfl
  | query s =>
    simp (disch := decide) only [envelopeWith, objectFacetWith_eq_schemaFacetWith hctx,
      Definition.slots, facetsWith, bind_assoc, pure_bind, bodyFacetsWith_eq]
    rfl
  | procedure s =>
    simp (disch := decide) only [envelopeWith, objectFacetWith_eq_schemaFacetWith hctx,
      Definition.slots, facetsWith, bind_assoc, pure_bind, bodyFacetsWith_eq]
    rfl
  | subscription s =>
    simp (disch := decide) only [envelopeWith, objectFacetWith_eq_schemaFacetWith hctx,
      Definition.slots, facetsWith, bind_assoc, pure_bind, messageFacetWith,
      Address.property_property]
    rfl
  | _ => rfl

theorem definitionWith_of_envelope {d : Definition} {c : Entries Validator → Compiled}
    (hc : ∀ vs, d.envelope vs = some (c vs)) (hctx : ctx.Equipped) (a : Address) :
    definitionWith apply ctx d a = (do return c (← facetsWith apply ctx a d.slots)) := by
  rw [definitionWith, envelopeWith_eq hctx, bind_assoc]
  congr
  funext vs
  rw [pure_bind, hc]

end Compile
end Lexicon
