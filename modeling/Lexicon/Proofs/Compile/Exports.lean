import Lexicon.Compile.Export
import Lexicon.Proofs.Compile.Constants
import Lexicon.Proofs.Compile.Yields
import Lexicon.Proofs.Validator.SchemaForm

/-!
# Exported schemas

What a document compiles to is well-formed as a schema but for unions, which need a branch: a union
may be declared without references, and the options may omit its branches. The validators that a
document compiles to have distinct fields, and their unions have branches if each union that occurs
in the document is left with one (`Document.formed_of_compile`). The schemas that are exported are
well-formed in this case and in no other (`Document.exportWellFormed_of_compile`).
-/

namespace Lexicon

open JsonSchema (wellFormed wellFormedFields)

def Compiled.exportWellFormed (c : Compiled) : Bool :=
  match c with
  | .schema _ => wellFormed c.jsonSchema
  | _ => c.jsonSchema.object?.any wellFormedFields

def CompiledLexicon.exportWellFormed (c : CompiledLexicon) : Bool :=
  c.defs.all fun e => e.2.exportWellFormed

/-- The options have no compilers of their own, put nothing in the place of nodes and add no fields.
They may leave nodes out and make them mandatory. -/
structure CompileOptions.Subtractive (o : CompileOptions) : Prop where
  registry : o.registry = {}
  override? : ∀ a v, o.table.override? a ≠ some (.replace v)
  additional : ∀ a, (o.table.getD a).additional = []

def Document.UnionsBranched (doc : Document) (o : CompileOptions) : Prop :=
  ∀ x s, doc.Occurs o x → o.table.override? x.address = none →
    x.context.Views x.definition (.union s) →
      ∃ index < s.refs.length, o.table.omits (x.address.branch index) = false

/-! ## Validators with distinct fields and branches -/

namespace Validator

/-- Fields are distinct, and unions have branches provided that `B` holds. -/
def Formed (B : Prop) (v : Validator) : Prop :=
  v.All fun w => Entries.Distinct w.fields ∧ (B → w.kind.Branched)

variable {B : Prop} {v w : Validator}

theorem formed_iff : v.Formed B ↔
    (Entries.Distinct v.fields ∧ (B → v.kind.Branched)) ∧ ∀ w ∈ v.kind.parts, w.Formed B :=
  all_iff

theorem Formed.of_kind (hv : v.Formed B) (hkind : w.kind = v.kind) : w.Formed B := by
  have hfields : w.fields = v.fields := by
    unfold fields
    rw [hkind]
  rw [formed_iff, hkind, hfields]
  exact formed_iff.mp hv

theorem Formed.branched (hv : v.Formed B) (hB : B) : v.All (·.kind.Branched) :=
  hv.mono fun _ h => h.2 hB

theorem Formed.distinct (hv : v.Formed B) : v.All fun w => Entries.Distinct w.fields :=
  hv.mono fun _ h => h.1

end Validator

def Kind.Simple : Kind Validator → Prop
  | .array .. | .object _ | .union _ | .tagged .. => False
  | _ => True

namespace Validator

variable {B : Prop} {v : Validator}

theorem formed_of_simple (h : v.kind.Simple) : v.Formed B := by
  obtain ⟨kind, optional, nullable, default, description⟩ := v
  cases kind with
  | array | object | union | tagged => exact h.elim
  | _ => exact .leaf ⟨List.nodup_nil, fun _ => trivial⟩ rfl

theorem formed_object {fields : Entries Validator} (h : ∀ e ∈ fields, e.2.Formed B) :
    (object fields).Formed B := by
  refine formed_iff.mpr ⟨⟨Entries.distinct_ofList fields, fun _ => trivial⟩, fun w hw => ?_⟩
  obtain ⟨e, he, rfl⟩ := List.mem_map.mp hw
  exact h e (Entries.mem_of_mem_ofList he)

theorem formed_array (h : v.Formed B) (least greatest : Option Nat) :
    ((array v).bounded minLength least |>.bounded maxLength greatest).Formed B := by
  have hparts : ∀ minItems maxItems, ({ kind := .array v minItems maxItems } : Validator).Formed B :=
    fun minItems maxItems => formed_iff.mpr
      ⟨⟨List.nodup_nil, fun _ => trivial⟩, fun w hw => List.mem_singleton.mp hw ▸ h⟩
  cases least <;> cases greatest <;> exact hparts _ _

theorem formed_taggedUnion {field : String} {branches : Entries Validator} {closed : Bool}
    (hbranched : B → branches ≠ []) (h : ∀ e ∈ branches, e.2.Formed B) :
    (taggedUnion field branches closed).Formed B := by
  refine formed_iff.mpr ⟨⟨List.nodup_nil, hbranched⟩, fun w hw => ?_⟩
  obtain ⟨e, he, rfl⟩ := List.mem_map.mp hw
  exact h e he

end Validator

namespace Definition

theorem simple_valued (policy : ConstPolicy) (d : Definition) : (d.valued policy).kind.Simple := by
  have hbare : d.bareValidator.kind.Simple := by
    cases d with
    | string s =>
      rw [bareValidator, StringShape.validator_default]
      trivial
    | integer s =>
      rw [bareValidator, IntegerShape.validator_default]
      trivial
    | _ => trivial
  rw [valued_eq]
  cases d.const? with
  | none => exact hbare
  | some x =>
    cases policy with
    | default => exact hbare
    | enforce => trivial

end Definition

theorem BlobShape.formed_validator {B : Prop} (s : BlobShape) : s.validator.Formed B := by
  have hsize : ∀ greatest,
      (Validator.integer.coerce.bounded Validator.maximum greatest).kind.Simple := by
    rintro (_ | _) <;> trivial
  have hmime : (if s.accept.isEmpty then Validator.string else
      Validator.string.acceptMime s.accept).kind.Simple := by
    split <;> trivial
  refine Validator.formed_object ?_
  simp only [List.forall_mem_cons, List.not_mem_nil, false_implies, implies_true, and_true]
  refine ⟨Validator.formed_of_simple trivial, Validator.formed_of_simple hmime,
    Validator.formed_of_simple (hsize _), Validator.formed_object ?_⟩
  exact fun e he => List.mem_singleton.mp he ▸ Validator.formed_of_simple trivial

theorem BytesShape.formed_validator {B : Prop} (s : BytesShape) : s.validator.Formed B := by
  have hbytes : (Validator.string.bounded Validator.minLength s.minLength
      |>.bounded Validator.maxLength s.maxLength).kind.Simple := by
    cases s.minLength <;> cases s.maxLength <;> trivial
  exact Validator.formed_object fun e he =>
    List.mem_singleton.mp he ▸ Validator.formed_of_simple hbytes

/-! ## Nodes -/

namespace Compile

theorem yields_leaf {B : Prop} {t : OptionTable} {apply : Apply} {ctx : Context} {d : Definition}
    {a : Address} (hd : d.isLeaf = true) :
    Yields t (Validator.Formed B) (bodyWith apply ctx d a) := by
  have hvalued := Validator.formed_of_simple (B := B) (d.simple_valued ctx.constPolicy)
  cases d with
  | object s | params s | array s | union s | ref s => exact nomatch hd
  | string s =>
    intro t₁ t₂ v ht hrun
    refine ⟨?_, ht.run (.string ctx s rfl) hrun⟩
    rw [bodyWith, string_eq] at hrun
    obtain ⟨⟨⟩, _, _, hv⟩ := runOn_bind_eq_ok.mp hrun
    cases hv
    exact hvalued
  | integer s | boolean s => exact .pure hvalued
  | blob s => exact (Yields.of_mirrors (.recordMetadata rfl _)).map fun _ _ => s.formed_validator
  | bytes s => exact .pure s.formed_validator
  | cidLink s =>
    refine .pure (Validator.formed_object fun e he => ?_)
    exact List.mem_singleton.mp he ▸ Validator.formed_of_simple trivial
  | _ => exact .pure (Validator.formed_of_simple trivial)

end Compile

namespace Registry

/-- A built-in compiler, or the one that accepts anything. -/
theorem resolve_builtin_eq {tag : String} {c : TypeCompiler} (h : builtin.resolve tag = .ok c) :
    c = .anything ∨ ∃ type, c = .node type := by
  by_cases htag : tag ∈ Definition.modelledTags
  · simp only [Definition.modelledTags, List.mem_cons, List.not_mem_nil, or_false] at htag
    rcases htag with rfl | rfl | rfl | rfl | rfl | rfl | rfl | rfl | rfl | rfl | rfl | rfl | rfl |
      rfl | rfl | rfl | rfl | rfl
    all_goals
      cases h
      first | exact .inl rfl | exact .inr ⟨_, rfl⟩
  · rw [resolve_builtin_of_not_mem htag] at h
    cases h
    exact .inl rfl

end Registry

/-! ## Documents -/

theorem Document.Occurs.builtin {doc : Document} {o : CompileOptions} {x : Occurrence}
    (ho : o.Subtractive) (hx : doc.Occurs o x) : x.context.registry = .builtin := by
  rw [hx.registry, ho.registry, Registry.overlaid_empty]

namespace Compile

variable {doc : Document} {o : CompileOptions} {x : Occurrence} {e : Definition}

section
variable {apply : Apply} (hx : doc.Occurs o x) (hoverride : o.table.override? x.address = none)
  (happly : ∀ {y}, doc.Occurs o y → o.table.override? y.address = none →
    Yields o.table (Validator.Formed (doc.UnionsBranched o))
      (dispatchWith apply y.context y.definition y.address))
include hx hoverride happly

/-- What a reference leads to occurs in its place. -/
theorem yields_refWith {s : RefShape} (hs : x.context.Views x.definition (.ref s)) :
    Yields o.table (Validator.Formed (doc.UnionsBranched o))
      (refWith apply x.context s x.address) := by
  unfold refWith
  split
  · rename_i hfollow
    refine .lift_bind fun target hlookup => .lift_bind fun inner hinner => ?_
    cases inner with
    | none => exact .pure (Validator.formed_of_simple trivial)
    | some inner =>
      obtain ⟨rfl, hscope⟩ := Context.follow?_eq_some hinner
      have hequipped : (x.context.enter (x.context.qualify s.target)).Equipped :=
        .of_overlaid hx.registry
      dsimp only
      rw [targetWith_eq hequipped]
      cases hstand : target.standIn? with
      | none => exact .pure (Validator.formed_of_simple trivial)
      | some e =>
        exact (happly (hx.referent hoverride hs hfollow hlookup hscope hstand) hoverride).map
          fun v hv => hv.of_kind rfl
  · exact .pure (Validator.formed_of_simple trivial)

/-- A node that is compiled comes to a formed validator if the nodes inside it, and the one that it
leads to, do. -/
theorem yields_bodyWith (ho : o.Subtractive) (he : x.context.Views x.definition e) :
    Yields o.table (Validator.Formed (doc.UnionsBranched o))
      (bodyWith apply x.context e x.address) := by
  have hnode : ∀ {p q step nullable}, e.Slot o.table x.address p q step nullable →
      Yields o.table (Outcome o.table (Validator.Formed (doc.UnionsBranched o)) q)
        (nodeWith apply x.context p q) := fun hp =>
    yields_nodeWith .of_kind ho.override? fun hnone =>
      happly (hx.inside hoverride he hp) hnone
  cases e with
  | object s =>
    rw [bodyWith, objectWith_eq]
    refine (yields_fieldsWith .of_kind fun e he => hnode (.property he)).bind
      fun fields hfields => .optionsAt_bind fun options hadditional => .pure ?_
    rw [hadditional, ho.additional, List.append_nil]
    exact Validator.formed_object hfields
  | params s => exact absurd he Context.not_views_params
  | array s =>
    exact (hnode .items).map fun _ hresult =>
      Validator.formed_array (hresult.getD_never (Validator.formed_of_simple trivial)) _ _
  | union s =>
    refine .lift_bind fun compiler hcompiler => ?_
    refine (yields_branchesWith hcompiler 0 fun i r hr => hnode (.branch ?_)).map
      fun branches hbranches => Validator.formed_taggedUnion (fun hbranched => ?_) hbranches.1
    · rwa [Nat.zero_add]
    · obtain ⟨index, hindex, hleft⟩ := hbranched x s hx hoverride he
      rw [ne_eq, hbranches.2]
      intro hall
      have homits := hall index hindex
      rw [Nat.zero_add, hleft] at homits
      exact Bool.false_ne_true homits
  | ref s => exact yields_refWith hx hoverride happly he
  | _ => exact yields_leaf rfl

end

/-- By induction on the bound: the nodes inside a node that occurs, and what it leads to, occur. -/
theorem yields_compileAt (ho : o.Subtractive) (n : Nat) (hx : doc.Occurs o x)
    (hoverride : o.table.override? x.address = none) :
    Yields o.table (Validator.Formed (doc.UnionsBranched o))
      (dispatchWith (compileAt n) x.context x.definition x.address) := by
  induction n generalizing x with
  | zero => exact .lift_bind fun _ _ => .throw _
  | succ n ih =>
    refine .lift_bind fun compiler hresolve => ?_
    have hbuiltin := hresolve
    rw [hx.builtin ho] at hbuiltin
    rcases Registry.resolve_builtin_eq hbuiltin with rfl | ⟨type, rfl⟩
    · exact .pure (Validator.formed_of_simple trivial)
    · change Yields o.table _ (typedWith (compileAt n) x.context type x.definition x.address)
      rw [typedWith_eq]
      refine .lift_bind fun e he => ?_
      have hview : x.context.Views x.definition e := ⟨type, hresolve, mapError_eq_ok.mp he⟩
      exact yields_bodyWith hx hoverride ih ho hview

/-- Nodes that occur come to formed validators, unless they are omitted. -/
theorem yields_node (ho : o.Subtractive) (hx : doc.Occurs o x) :
    Yields o.table (Outcome o.table (Validator.Formed (doc.UnionsBranched o)) x.address)
      (nodeWith unbounded x.context x.definition x.address) :=
  yields_nodeWith .of_kind ho.override? fun hnone =>
    yields_compileAt ho (x.context.depth x.definition) hx hnone

end Compile

theorem Definition.formed_envelope {B : Prop} {d : Definition} {vs : Entries Validator}
    {c : Compiled} (hvs : ∀ e ∈ vs, e.2.Formed B) (hc : d.envelope vs = some c) :
    ∀ f ∈ c.facets, f.2.Formed B := by
  have hnever : Validator.never.Formed B := Validator.formed_of_simple trivial
  have hfacet : ∀ name, ((vs.find? name).getD .never).Formed B := by
    intro name
    cases hfound : vs.find? name with
    | none => exact hnever
    | some v => exact hvs _ (Entries.mem_of_find? hfound)
  have hliteral : ∀ declared, (literalOrNever declared).Formed B := by
    rintro (_ | _) <;> exact Validator.formed_of_simple trivial
  have herrors : ∀ errors, (NamedError.validator errors).Formed B := by
    intro errors
    unfold NamedError.validator
    split <;> exact Validator.formed_of_simple trivial
  have hbody : ∀ body name, (bodyFacets body ((vs.find? name).getD .never)).encoding.Formed B ∧
      (bodyFacets body ((vs.find? name).getD .never)).schema.Formed B := by
    rintro (_ | body) name
    · exact ⟨hnever, hnever⟩
    · exact ⟨hliteral _, hfacet name⟩
  cases d with
  | record s =>
    cases hc
    simp [Compiled.facets, hliteral, hfacet]
  | query s =>
    cases hc
    simp [Compiled.facets, hfacet, hbody, herrors]
  | procedure s =>
    cases hc
    simp [Compiled.facets, hfacet, hbody, herrors]
  | subscription s =>
    cases hc
    simp [Compiled.facets, hfacet, herrors]
  | _ => cases hc

namespace Compile

variable {doc : Document} {o : CompileOptions} {name : String} {d : Definition}

theorem yields_definitionWith (ho : o.Subtractive) (hd : (name, d) ∈ doc.defs)
    (hoverride : o.table.override? name = none) :
    Yields o.table (fun c => ∀ f ∈ c.facets, f.2.Formed (doc.UnionsBranched o))
      (definitionWith unbounded (doc.contextAt o name) d name) := by
  cases hprimary : d.isPrimary with
  | false =>
    have hx : doc.Occurs o _ := .definition hd fun h => nomatch hprimary.symm.trans h
    have hdispatch := yields_compileAt ho ((doc.contextAt o name).depth d) hx hoverride
    rw [definitionWith_of_not_primary _ _ hprimary]
    refine (yields_extendedWith .of_kind hdispatch).map fun v hv f hf => ?_
    rw [List.mem_singleton.mp hf]
    exact hv
  | true =>
    have hequipped : (doc.contextAt o name).Equipped := .of_overlaid (doc.registry_contextAt o name)
    obtain ⟨c, hc, hcompile⟩ := definitionWith_of_primary unbounded hequipped hprimary name
    rw [hcompile]
    have hfacet : ∀ facet e, (facet, some e) ∈ d.slots →
        Yields o.table (Outcome o.table (Validator.Formed (doc.UnionsBranched o))
            (Address.property name facet))
          (nodeWith unbounded (doc.contextAt o name) e (Address.property name facet)) := by
      intro facet e he
      have hx : doc.Occurs o _ := .facet hd hoverride he
      have hnode := yields_node ho hx
      exact hnode
    exact (yields_facetsWith (Validator.formed_of_simple trivial) hfacet).map
      fun vs hvs => Definition.formed_envelope hvs (hc vs)

theorem yields_definitions (ho : o.Subtractive) {defs : Entries Definition}
    (hdefs : ∀ e ∈ defs, e ∈ doc.defs) :
    Yields o.table
      (fun compiled => ∀ e ∈ compiled, ∀ f ∈ e.2.facets, f.2.Formed (doc.UnionsBranched o))
      (definitions ((Context.ofOptions o).register doc) (doc.id.getD "") defs) := by
  induction defs with
  | nil => exact .pure nofun
  | cons e rest ih =>
    obtain ⟨name, d⟩ := e
    obtain ⟨hd, hrest⟩ := List.forall_mem_cons.mp hdefs
    refine .override?_bind ?_
    rcases hoverride : o.table.override? name with _ | _ | v
    · change Yields _ _ ((doc.contextAt o name).compileDefinition d name >>= _)
      rw [Context.compileDefinition_eq]
      exact (yields_definitionWith ho hd hoverride).bind fun c hc =>
        (ih hrest).map fun compiled hcompiled => List.forall_mem_cons.mpr ⟨hc, hcompiled⟩
    · exact ih hrest
    · exact absurd hoverride (ho.override? name v)

end Compile

namespace Document

variable {doc : Document} {o : CompileOptions} {c : CompiledLexicon}

/-- What a document compiles to has distinct fields, and branches in its unions if they are left
with one. -/
theorem formed_of_compile (ho : o.Subtractive) (hc : doc.compile o = .ok c) :
    ∀ e ∈ c.defs, ∀ f ∈ e.2.facets, f.2.Formed (doc.UnionsBranched o) := by
  obtain ⟨compiled, t, hrun, rfl⟩ := compile_eq_ok.mp hc
  exact (Compile.yields_definitions ho (fun _ h => h) _ _ _ (Compile.keeps_self _ _) hrun).1

end Document

/-! ## Unions that are exported -/

namespace Validator

variable {v w : Validator}

theorem mem_parts_of_inside? {step : Step} (h : v.inside? step = some w) : w ∈ v.kind.parts := by
  obtain ⟨kind, optional, nullable, default, description⟩ := v
  cases step with
  | field key =>
    cases kind with
    | object fields => exact List.mem_map_of_mem (f := Prod.snd) (Entries.mem_of_find? h)
    | _ => exact nomatch h
  | items =>
    cases kind with
    | array items minItems maxItems => exact List.mem_singleton.mpr (Option.some.inj h).symm
    | _ => exact nomatch h
  | branch index =>
    cases kind with
    | tagged field branches closed =>
      obtain ⟨e, he, rfl⟩ := Option.map_eq_some_iff.mp h
      exact List.mem_map_of_mem (List.mem_of_getElem? he)
    | _ => exact nomatch h

end Validator

/-- What holds of all validators in the facets holds of those at a place. -/
theorem CompiledLexicon.all_at? {P : Validator → Prop} {c : CompiledLexicon} {place : Place}
    {v : Validator} (h : ∀ e ∈ c.defs, ∀ f ∈ e.2.facets, f.2.All P) (hv : c.at? place = some v) :
    v.All P := by
  obtain ⟨name, facet, steps⟩ := place
  induction steps using List.reverseRecOn generalizing v with
  | nil =>
    obtain ⟨compiled, hcompiled, hfacet⟩ := Option.bind_eq_some_iff.mp hv
    exact h _ (Entries.mem_of_find? hcompiled) _ (Entries.mem_of_find? hfacet)
  | append_singleton steps step ih =>
    have hinside := c.at?_inside { name, facet, steps } step
    obtain ⟨outer, houter, hstep⟩ := Option.bind_eq_some_iff.mp (hinside.symm.trans hv)
    exact (ih houter).inside (Validator.mem_parts_of_inside? hstep)

namespace Document

variable {doc : Document} {o : CompileOptions} {c : CompiledLexicon} {x : Occurrence}

/-- Every node stands somewhere if the options add no fields. -/
theorem Occurs.placed (ho : o.Subtractive) (hdoc : doc.Proper) (hdict : o.lexicons.All Proper)
    (h : doc.Occurs o x) :
    ∃ place nullable, doc.Occurs o { x with place := some place, nullable } := by
  induction h with
  | definition hd hplain => exact ⟨_, _, .definition hd hplain⟩
  | facet hd hoverride he => exact ⟨_, _, .facet hd hoverride he⟩
  | @inside x _ _ _ _ _ hx hoverride he hp ih =>
    obtain ⟨place, nullable, hplaced⟩ := ih
    cases hp with
    | @property s key p hp =>
      -- The field of the key is the one of this property, since the keys are distinct.
      have hall := hx.all (fun _ h => h) (fun h hs => h.shape hs) (fun _ _ => ⟨nofun, nofun⟩)
        ho.registry hdoc.proper fun id doc hfound => (hdict id doc hfound).proper
      have hobject := all_of_views (fun _ h => h) (fun h hs => h.shape hs) (hx.builtin ho) hall he
      have hkeys := hobject.here.distinct s (List.mem_singleton_self s)
      have hadded : Entries.contains (o.table.getD x.address).additional key = false := by
        rw [ho.additional]
        rfl
      exact ⟨_, _, hplaced.inside hoverride he (.field hp hkeys hadded)⟩
    | field hp hkeys hadded => exact ⟨_, _, hplaced.inside hoverride he (.field hp hkeys hadded)⟩
    | items => exact ⟨_, _, hplaced.inside hoverride he .items⟩
    | branch hindex => exact ⟨_, _, hplaced.inside hoverride he (.branch hindex)⟩
  | referent hx hoverride hs hfollow hlookup hscope he ih =>
    obtain ⟨place, nullable, hplaced⟩ := ih
    exact ⟨place, _, hplaced.referent hoverride hs hfollow hlookup hscope he⟩

open Compile (unbounded dispatchWith nodeWith) in
/-- A union that is left without branches stands in what the document compiles to. -/
theorem unionsBranched_of_branched (ho : o.Subtractive) (hdoc : doc.Proper)
    (hdict : o.lexicons.All Proper) (hc : doc.compile o = .ok c)
    (hbranched : ∀ e ∈ c.defs, ∀ f ∈ e.2.facets, f.2.All (·.kind.Branched)) :
    doc.UnionsBranched o := by
  intro x s hx hoverride hs
  -- The validator at the place of the union is of the kind that the union is compiled to.
  obtain ⟨place, nullable, hplaced⟩ := hx.placed ho hdoc hdict
  have hstands := hplaced.stands hdoc.distinct hc
  unfold Occurrence.Stands at hstands
  rw [hoverride] at hstands
  obtain ⟨t, t', w, ht, hdispatch, hplace⟩ := hstands
  obtain ⟨v, hv, hkind⟩ := hplace place rfl
  have hhere : v.kind.Branched := (CompiledLexicon.all_at? hbranched hv).here
  rw [Compile.dispatchWith_unbounded, Compile.dispatchWith_of_views hs] at hdispatch
  obtain ⟨compiler, s₁, hrequire, hunion⟩ := Compile.runOn_bind_eq_ok.mp hdispatch
  obtain ⟨hcompiler, rfl⟩ := Compile.runOn_lift_eq_ok.mp hrequire
  obtain ⟨branches, s₂, hbranches, hw⟩ := Compile.runOn_bind_eq_ok.mp hunion
  cases hw
  have hnode : ∀ reference a, Compile.Yields o.table (Compile.Outcome o.table (fun _ => True) a)
      (nodeWith unbounded x.context (.ref { target := reference }) a) := by
    intro reference a
    refine Compile.yields_nodeWith (fun _ _ => trivial) ho.override? fun _ => ?_
    have hdict : x.context.lexicons.Alike x.context.lexicons := fun _ => rfl
    have hmirrors : Compile.Mirrors Eq
        (dispatchWith unbounded x.context (.ref { target := reference }) a)
        (dispatchWith unbounded x.context (.ref { target := reference }) a) :=
      Compile.mirrors_dispatchWith Compile.relocates_eq hdict x.context.namesAlike_eq rfl
    exact .of_mirrors hmirrors
  have hempty := (Compile.yields_branchesWith hcompiler 0 (fun _ r _ => hnode r _) _ _ _ ht
    hbranches).1.2
  by_contra hno
  have homitted : ∀ i < s.refs.length, o.table.omits (x.address.branch (0 + i)) = true := by
    intro i hi
    rw [Nat.zero_add, ← Bool.not_eq_false]
    exact fun hleft => hno ⟨i, hi, hleft⟩
  rw [hkind] at hhere
  exact hhere (hempty.mpr homitted)

end Document

/-! ## Exports -/

theorem Compiled.exportWellFormed_iff (c : Compiled) :
    c.exportWellFormed = true ↔ ∀ f ∈ c.facets, wellFormed f.2.toJsonSchema = true := by
  have hfacets : wellFormedFields (c.facets.mapValues Validator.toJsonSchema) = true ↔
      ∀ f ∈ c.facets, wellFormed f.2.toJsonSchema = true := by
    rw [JsonSchema.wellFormedFields_iff]
    exact List.forall_mem_map
  cases c with
  | schema v =>
    change wellFormed v.toJsonSchema = true ↔ ∀ f ∈ [("", v)], wellFormed f.2.toJsonSchema = true
    rw [List.forall_mem_singleton]
  | _ => exact hfacets

theorem CompiledLexicon.exportWellFormed_iff (c : CompiledLexicon) :
    c.exportWellFormed = true ↔
      ∀ e ∈ c.defs, ∀ f ∈ e.2.facets, wellFormed f.2.toJsonSchema = true := by
  rw [exportWellFormed, List.all_eq_true]
  exact forall₂_congr fun e _ => e.2.exportWellFormed_iff

namespace Document

variable {doc : Document} {o : CompileOptions} {c : CompiledLexicon}

/-- Where the options only leave nodes out and make them mandatory, the schemas that a document is
exported as are well-formed if its unions are left with a branch, and only then. -/
theorem exportWellFormed_of_compile {x : Json} (hdoc : ofJson x = .ok doc) (ho : o.Subtractive)
    (hc : doc.compile o = .ok c) :
    (doc.UnionsBranched o → c.exportWellFormed = true) ∧
      (o.lexicons.All Proper → c.exportWellFormed = true → doc.UnionsBranched o) := by
  have hformed := formed_of_compile ho hc
  have hiff : c.exportWellFormed = true ↔
      ∀ e ∈ c.defs, ∀ f ∈ e.2.facets, f.2.All (·.kind.Branched) := by
    rw [c.exportWellFormed_iff]
    exact forall₂_congr fun e he => forall₂_congr fun f hf =>
      Validator.wellFormed_toJsonSchema_iff (hformed e he f hf).distinct
  constructor
  · exact fun hunions => hiff.mpr fun e he f hf => (hformed e he f hf).branched hunions
  · exact fun hdict hexport =>
      unionsBranched_of_branched ho (proper_of_ofJson hdoc) hdict hc (hiff.mp hexport)

def notes : Document where
  id := some "app.notes"
  defs := [("main", .union { refs := ["#text"] }), ("text", .object {})]

theorem exportWellFormed_of_compile_notes :
    ∃ c, notes.compile {} = .ok c ∧ c.exportWellFormed = true ∧ notes.UnionsBranched {} := by
  have hread : ofJson (.object [
      ("id", .string "app.notes"),
      ("defs", .object [
        ("main", .object [("type", .string "union"), ("refs", .array [.string "#text"])]),
        ("text", .object [("type", .string "object")])])]) = .ok notes := rfl
  have hsubtractive : ({} : CompileOptions).Subtractive := ⟨rfl, fun _ _ => nofun, fun _ => rfl⟩
  obtain ⟨c, hc⟩ : ∃ c, notes.compile {} = .ok c := ⟨_, rfl⟩
  have hexport : (notes.compile {}).toOption.any (·.exportWellFormed) = true := by decide +kernel
  rw [hc] at hexport
  obtain ⟨hwellFormed, hunions⟩ := exportWellFormed_of_compile hread hsubtractive hc
  have hbranched := hunions nofun hexport
  exact ⟨c, hc, hwellFormed hbranched, hbranched⟩

/-- A union that declares no references is exported as an `anyOf` without schemas. -/
theorem not_exportWellFormed_of_no_refs :
    ∃ doc c, ofJson (.object [
        ("lexicon", .nat 1), ("id", .string "app.x"),
        ("defs", .object [
          ("main", .object [("type", .string "union"), ("refs", .array [])])])]) = .ok doc ∧
      ({} : CompileOptions).Subtractive ∧ doc.compile {} = .ok c ∧
      c.jsonSchema = .object [("main", .object [
        ("anyOf", .array []), ("$schema", .string JsonSchema.dialect)])] ∧
      c.exportWellFormed = false :=
  ⟨_, _, rfl, ⟨rfl, fun _ _ => nofun, fun _ => rfl⟩, rfl, rfl, rfl⟩

end Document
end Lexicon
