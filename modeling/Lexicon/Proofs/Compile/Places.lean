import Lexicon.Proofs.Compile.Nodes

/-!
# Where validators stand

`Document.Occurs doc o x` lists the nodes that compiling a document comes to, from its definitions
down to the nodes inside nodes and on to what references lead to, under every registry. An
occurrence knows where its validator stands in the compiled document. A compilation changes neither
what stands at an address nor the fields that are added there (`Keeps`), so what the options say of
a node is what becomes of it (`Document.Occurs.stands`).
-/

namespace Lexicon

namespace Validator

inductive Step where
  | field (key : String)
  | items
  /-- Branches count by their position. -/
  | branch (index : Nat)

def inside? (v : Validator) : Step → Option Validator
  | .field key => v.field? key
  | .items => v.items?
  | .branch index => v.branches[index]?.map Prod.snd

theorem inside?_of_kind {v w : Validator} (h : v.kind = w.kind) (step : Step) :
    v.inside? step = w.inside? step := by
  cases step with
  | field key => exact field?_of_kind h key
  | items => exact items?_of_kind h
  | branch index => rw [inside?, inside?, branches_of_kind h]

end Validator

/-- Where a validator stands in a compiled document: the definition, the facet, and the steps from
there. -/
structure Place where
  name : String
  facet : String := ""
  steps : List Validator.Step := []

def Place.inside (place : Place) (step : Validator.Step) : Place :=
  { place with steps := place.steps ++ [step] }

def CompiledLexicon.at? (c : CompiledLexicon) (place : Place) : Option Validator :=
  place.steps.foldl (fun v step => v.bind (·.inside? step))
    ((c.defs.find? place.name).bind (·.facet? place.facet))

theorem CompiledLexicon.at?_inside (c : CompiledLexicon) (place : Place) (step : Validator.Step) :
    c.at? (place.inside step) = (c.at? place).bind (·.inside? step) :=
  List.foldl_concat ..

/-- The nodes directly inside a node: the definition, the address, the step that leads to the
validator, and whether that is made to let null through. No step leads to a property if the options
add a field of its key. -/
inductive Definition.Slot (t : OptionTable) (a : Address) :
    Definition → Definition → Address → Option Validator.Step → Bool → Prop
  | property {s : ObjectShape Definition} {key : String} {p : Definition}
    (hp : (key, p) ∈ s.properties) : Slot t a (.object s) p (a.property key) none false
  | field {s : ObjectShape Definition} {key : String} {p : Definition}
    (hp : (key, p) ∈ s.properties) (hkeys : Entries.Distinct s.properties)
    (hadded : Entries.contains (t.getD a).additional key = false) :
    Slot t a (.object s) p (a.property key) (some (.field key)) (s.nullable.contains key)
  | items {s : ArrayShape Definition} : Slot t a (.array s) s.items a.element (some .items) false
  | branch {s : UnionShape} {index : Nat} {reference : String}
    (hindex : s.refs[index]? = some reference) :
    Slot t a (.union s) (.ref { target := reference }) (a.branch index)
      (some (.branch (t.branchesBefore a index))) false

def Document.contextAt (doc : Document) (o : CompileOptions) (name : String) : Context :=
  ((Context.ofOptions o).register doc).enter ⟨doc.id.getD "", name⟩

structure Occurrence where
  context : Context
  definition : Definition
  address : Address
  /-- Where its validator stands, if a field that the options add does not count instead. -/
  place : Option Place
  /-- It is a property whose value may be null. -/
  nullable : Bool := false

namespace Document

/-- A definition occurs at its name, unless it is an envelope, whose facets do instead; if something
stands at the name, the definition is what it stands for. Where nothing stands at the address of a
node, the nodes inside it occur, and what it leads to occurs in its place. -/
inductive Occurs (doc : Document) (o : CompileOptions) : Occurrence → Prop
  | definition {name : String} {d : Definition} (hd : (name, d) ∈ doc.defs)
    (hplain : d.isPrimary = true → o.table.override? name ≠ none) :
    Occurs doc o {
      context := doc.contextAt o name
      definition := d
      address := name
      place := some { name } }
  | facet {name facet : String} {d e : Definition} (hd : (name, d) ∈ doc.defs)
    (hoverride : o.table.override? name = none) (he : (facet, some e) ∈ d.slots) :
    Occurs doc o {
      context := doc.contextAt o name
      definition := e
      address := Address.property name facet
      place := some { name, facet } }
  | inside {x : Occurrence} {e p : Definition} {q : Address} {step : Option Validator.Step}
    {nullable : Bool} (hx : Occurs doc o x) (hoverride : o.table.override? x.address = none)
    (he : x.context.Views x.definition e) (hp : e.Slot o.table x.address p q step nullable) :
    Occurs doc o {
      context := x.context
      definition := p
      address := q
      place := x.place.bind fun place => step.map place.inside
      nullable }
  | referent {x : Occurrence} {s : RefShape} {target e : Definition} (hx : Occurs doc o x)
    (hoverride : o.table.override? x.address = none) (hs : x.context.Views x.definition (.ref s))
    (hfollow : x.context.followRefs = true) (hlookup : x.context.lookup s.target = .ok target)
    (hscope : x.context.qualify s.target ∉ x.context.scope) (he : target.standIn? = some e) :
    Occurs doc o {
      context := x.context.enter (x.context.qualify s.target)
      definition := e
      address := x.address
      place := x.place }

variable {doc : Document} {o : CompileOptions} {x : Occurrence}

theorem registry_contextAt (doc : Document) (o : CompileOptions) (name : String) :
    (doc.contextAt o name).registry = Registry.builtin.overlaid o.registry := by
  unfold contextAt
  rw [Context.register_eq]
  rfl

theorem Occurs.registry (h : doc.Occurs o x) :
    x.context.registry = Registry.builtin.overlaid o.registry := by
  induction h with
  | definition _ _ | facet _ _ _ => exact registry_contextAt doc o _
  | inside _ _ _ _ ih => exact ih
  | referent _ _ _ _ _ _ _ ih => exact ih

theorem Occurs.lexicons (h : doc.Occurs o x) :
    x.context.lexicons = ((Context.ofOptions o).register doc).lexicons := by
  induction h with
  | definition _ _ | facet _ _ _ => rfl
  | inside _ _ _ _ ih => exact ih
  | referent _ _ _ _ _ _ _ ih => exact ih

section
variable {P : Definition → Prop} (hproper : ∀ d, P d → d.Proper)
  (hshape : ∀ {d s}, P d → s ∈ d.shapes → P (.object s))
  (href : ∀ {s reference}, P (.union s) → reference ∈ s.refs → P (.ref { target := reference }))
include hproper hshape

/-- The built-in compilers see nothing of a definition that is not there. -/
theorem all_of_views {ctx : Context} {d e : Definition} (hregistry : ctx.registry = .builtin)
    (hd : d.All P) (he : ctx.Views d e) : e.All P := by
  obtain ⟨type, hresolve, hview⟩ := he
  rw [hregistry] at hresolve
  rcases Definition.viewedAs_self hview hresolve (hproper d hd.here) with rfl | ⟨s, rfl, rfl⟩
  · exact hd
  · exact hd.shape (List.mem_singleton_self s) (hshape hd.here (List.mem_singleton_self s))

include href

/-- What holds of all definitions of a document and of its dictionary holds of those that occur,
if the compilers are the built-in ones. -/
theorem Occurs.all (hregistry : o.registry = {}) (hdoc : ∀ e ∈ doc.defs, e.2.All P)
    (hdict : Dictionary.All (fun doc => ∀ e ∈ doc.defs, e.2.All P) o.lexicons)
    (h : doc.Occurs o x) : x.definition.All P := by
  have hbuiltin : ∀ {x}, doc.Occurs o x → x.context.registry = .builtin := fun hx => by
    rw [hx.registry, hregistry, Registry.overlaid_empty]
  have hjoined : Dictionary.All (fun doc => ∀ e ∈ doc.defs, e.2.All P)
      ((Context.ofOptions o).register doc).lexicons := by
    have hgiven : Dictionary.All (fun doc => ∀ e ∈ doc.defs, e.2.All P)
        (Context.ofOptions o).lexicons := hdict
    exact hgiven.register hdoc
  induction h with
  | definition hd _ => exact hdoc _ hd
  | facet hd _ he => exact (hdoc _ hd).slot hshape he
  | inside hx _ he hp ih =>
    have hall := all_of_views hproper hshape (hbuiltin hx) ih he
    cases hp with
    | property hp | field hp _ _ =>
      exact hall.inside (Definition.mem_parts.mpr
        (.inl ⟨_, List.mem_singleton_self _, List.mem_map_of_mem hp⟩))
    | items => exact hall.inside (Definition.mem_parts.mpr (.inr (List.mem_singleton_self _)))
    | branch hindex => exact .intro (href hall.here (List.mem_of_getElem? hindex)) nofun
  | @referent x s target e hx _ _ _ hlookup _ he _ =>
    have htarget := Context.definition?_of_lookup hlookup
    rw [hx.lexicons] at htarget
    have hall : target.All P := hjoined.definition (fun _ h => h) htarget
    cases target with
    | record r =>
      obtain ⟨s, hs, rfl⟩ := Option.map_eq_some_iff.mp he
      exact hall.shape (Option.mem_toList.mpr hs) (hshape hall.here (Option.mem_toList.mpr hs))
    | _ =>
      obtain rfl := Option.some.inj he
      exact hall

end
end Document

namespace Compile

variable {α : Type} {ctx : Context} {d p : Definition} {a : Address} {t : OptionTable}
  {s s' : Tables} {M : Address → Prop} {w : Validator}

def Keeps (t : OptionTable) (s : Tables) : Prop :=
  ∀ q, s.options.override? q = t.override? q ∧
    (s.options.getD q).additional = (t.getD q).additional

theorem keeps_self (t : OptionTable) (metadata : MetadataTable) : Keeps t ⟨t, metadata⟩ :=
  fun _ => ⟨rfl, rfl⟩

theorem Keeps.after (h : Keeps t s) (heffect : Effect M s s') : Keeps t s' := fun q =>
  ⟨(heffect.override? q).trans (h q).1, (heffect.marked q).unchanged.2.2.trans (h q).2⟩

theorem Keeps.run {c : Compile α} {result : Except CompileError α} (h : Keeps t s)
    (hc : Mirrors Eq c c) (hrun : c.runOn s = (result, s')) : Keeps t s' := by
  have heffect := hc.effect s
  rw [hrun] at heffect
  exact h.after heffect

theorem Keeps.requireIf {condition : Bool} (h : Keeps t s)
    (hrun : (if condition then requireNode a else pure ()).runOn s = (.ok (), s')) : Keeps t s' := by
  refine h.run ?_ hrun
  split
  · exact .requireNode rfl
  · exact .pure ()

theorem Keeps.omits (h : Keeps t s) : s.options.omits = t.omits := by
  funext q
  rw [OptionTable.omits, OptionTable.omits, (h q).1]

theorem Keeps.fields {shape : ObjectShape Definition} {properties : Entries Definition}
    {result : Except CompileError (Entries Validator)} (h : Keeps t s)
    (hrun : (fieldsWith unbounded ctx shape a properties).runOn s = (result, s')) : Keeps t s' := by
  have hdict : ctx.lexicons.Alike ctx.lexicons := fun _ => rfl
  exact h.run (mirrors_fieldsWith relocates_eq hdict closed_eq ctx.namesAlike_eq rfl _ _) hrun

section
variable (hs : Keeps t s)
include hs

theorem Keeps.node {result : Except CompileError (Option Validator)}
    (hrun : (nodeWith unbounded ctx d a).runOn s = (result, s')) : Keeps t s' :=
  hs.run (mirrors_self closed_eq (fun _ _ => id) ctx d rfl) hrun

/-- The fields are those of the properties that are not omitted, in their order. -/
theorem keys_of_fieldsWith {shape : ObjectShape Definition} {properties : Entries Definition}
    {fields : Entries Validator}
    (hrun : (fieldsWith unbounded ctx shape a properties).runOn s = (.ok fields, s')) :
    fields.keys = properties.keys.filter fun key => !t.omits (a.property key) := by
  induction properties generalizing s fields with
  | nil =>
    cases hrun
    rfl
  | cons e rest ih =>
    obtain ⟨key, d⟩ := e
    obtain ⟨result, tail, s₁, s₂, hrequire, hnode, hrest, rfl⟩ := runOn_fieldsWith_cons hrun
    have hs₁ : Keeps t s₁ := hs.requireIf hrequire
    rw [Entries.keys_append, ih (hs₁.node hnode) hrest, Entries.keys_cons, List.filter_cons,
      ← hs₁.omits, ← isSome_nodeWith hnode]
    cases result <;> rfl

theorem node_of_facetsWith {slots : List (String × Option Definition)} {name : String}
    {vs : Entries Validator} (hslots : slots.Pairwise fun x y => x.1 ≠ y.1)
    (hslot : (name, some d) ∈ slots)
    (hrun : (facetsWith unbounded ctx a slots).runOn s = (.ok vs, s')) :
    ∃ s₁ s₂ result, Keeps t s₁ ∧
      (nodeWith unbounded ctx d (a.property name)).runOn s₁ = (.ok result, s₂) ∧
      vs.find? name = some (result.getD .never) := by
  induction slots generalizing s vs with
  | nil => exact nomatch hslot
  | cons slot rest ih =>
    obtain ⟨first, schema⟩ := slot
    obtain ⟨hfirst, hothers⟩ := List.pairwise_cons.mp hslots
    obtain ⟨v, s₁, hfacet, hrun⟩ := runOn_bind_eq_ok.mp hrun
    obtain ⟨tail, s₂, hrest, hvs⟩ := runOn_bind_eq_ok.mp hrun
    cases hvs
    rcases List.mem_cons.mp hslot with he | hslot
    · cases he
      obtain ⟨⟨⟩, s₁', hrequire, hfacet⟩ := runOn_bind_eq_ok.mp hfacet
      obtain ⟨result, s₂', hnode, hv⟩ := runOn_bind_eq_ok.mp hfacet
      cases hv
      refine ⟨s₁', s₁, result, hs.run (.requireNode rfl) hrequire, hnode, ?_⟩
      rw [Entries.find?_cons, if_pos rfl]
    · have hdict : ctx.lexicons.Alike ctx.lexicons := fun _ => rfl
      have hmirrors : Mirrors Eq (schemaFacetWith unbounded ctx schema (a.property first))
          (schemaFacetWith unbounded ctx schema (a.property first)) :=
        mirrors_schemaFacetWith relocates_eq hdict ctx.namesAlike_eq rfl schema
      have hs₁ : Keeps t s₁ := hs.run hmirrors hfacet
      obtain ⟨s₁', s₂', result, hs₁', hnode, hfound⟩ := ih hs₁ hothers hslot hrest
      refine ⟨s₁', s₂', result, hs₁', hnode, ?_⟩
      rw [Entries.find?_cons, if_neg (hfirst _ hslot), hfound]

/-- Each node inside a node is compiled on such tables, and its validator stands inside the one of
the node. -/
theorem node_of_slot {e : Definition} {q : Address} {step : Option Validator.Step} {nullable : Bool}
    (hp : e.Slot t a p q step nullable)
    (hrun : (bodyWith unbounded ctx e a).runOn s = (.ok w, s')) :
    ∃ s₁ s₂ result, Keeps t s₁ ∧ (nodeWith unbounded ctx p q).runOn s₁ = (.ok result, s₂) ∧
      ∀ v, result = some v → ∀ st ∈ step,
        w.inside? st = some (if nullable then v.asNullable else v) := by
  cases hp with
  | property hp =>
    obtain ⟨fields, s₁, hfields, -⟩ := runOn_bind_eq_ok.mp hrun
    obtain ⟨_, _, _, _, result, s₂, s₃, s₄, -, hbefore, hrequire, hnode, -⟩ :=
      runOn_fieldsWith_of_mem hp hfields
    exact ⟨s₃, s₄, result, (hs.fields hbefore).requireIf hrequire, hnode, nofun⟩
  | @field shape key _ hp hkeys hadded =>
    rw [bodyWith, objectWith_eq] at hrun
    obtain ⟨fields, s₁, hfields, hrun⟩ := runOn_bind_eq_ok.mp hrun
    rw [runOn_bind_of_ok (runOn_optionsAt a)] at hrun
    cases hrun
    obtain ⟨_, _, _, _, result, s₂, s₃, s₄, -, hbefore, hrequire, hnode, -, hfound⟩ :=
      runOn_fieldsWith_of_mem hp hfields
    refine ⟨s₃, s₄, result, (hs.fields hbefore).requireIf hrequire, hnode, fun v hv st hst => ?_⟩
    obtain rfl := Option.some.inj hst
    have hdistinct : Entries.Distinct fields := (sublist_fieldsWith hfields).nodup hkeys
    have hadded : Entries.find? (s'.options.getD a).additional key = none := by
      rw [(hs.fields hfields a).2]
      rwa [Entries.contains, Option.isSome_eq_false_iff, Option.isNone_iff_eq_none] at hadded
    rw [Validator.inside?, Validator.field?_object_append hdistinct hadded, hfound hkeys v hv]
  | items =>
    obtain ⟨result, s₁, hnode, hw⟩ := runOn_bind_eq_ok.mp hrun
    cases hw
    refine ⟨s, s', result, hs, hnode, ?_⟩
    rintro v rfl st ⟨⟩
    rw [Validator.inside?, Validator.items?_bounded _ _ (Validator.items?_maxLength _),
      Validator.items?_bounded _ _ (Validator.items?_minLength _)]
    rfl
  | @branch shape index reference hindex =>
    rw [bodyWith, unionWith] at hrun
    obtain ⟨compiler, s₁, hrequire, hbody⟩ := runOn_bind_eq_ok.mp hrun
    obtain ⟨hcompiler, rfl⟩ := runOn_lift_eq_ok.mp hrequire
    obtain ⟨branches, s₂, hbranches, hw⟩ := runOn_bind_eq_ok.mp hbody
    cases hw
    obtain ⟨first, _, result, s₃, s₄, hbefore, hnode, -, hfound⟩ :=
      runOn_branchesWith_of_getElem? hcompiler hindex hbranches
    have hdict : ctx.lexicons.Alike ctx.lexicons := fun _ => rfl
    have hs₃ : Keeps t s₃ := hs.run
      (mirrors_branchesWith relocates_eq hdict closed_eq ctx.namesAlike_eq rfl compiler 0 _) hbefore
    refine ⟨s₃, s₄, result, hs₃, hnode, fun v hv st hst => ?_⟩
    obtain rfl := Option.some.inj hst
    have hfound := hfound v hv
    rw [OptionTable.branchesBefore, hs.omits] at hfound
    change (branches[t.branchesBefore a index]?).map Prod.snd = some v
    rw [OptionTable.branchesBefore, hfound, Option.map_some]

end

section
variable {nsid name : String}

/-- A definition that is no envelope, or that something stands in the place of, is a node. -/
theorem runOn_definitionAt (hplain : d.isPrimary = true → s.options.override? name ≠ none) :
    (definitionAt ctx nsid (name, d)).runOn s =
      (do return (← nodeWith unbounded (ctx.enter ⟨nsid, name⟩) d name).map Compiled.schema).runOn
        s := by
  rw [definitionAt, runOn_bind_of_ok (runOn_override? _), nodeWith, bind_assoc,
    runOn_bind_of_ok (runOn_override? _)]
  rcases hoverride : s.options.override? name with _ | _ | v
  · have hprimary : d.isPrimary = false := by
      rw [← Bool.not_eq_true]
      exact fun h => hplain h hoverride
    simp only [Context.compileDefinition_eq, definitionWith_of_not_primary _ _ hprimary, bind_assoc,
      pure_bind, Option.map_some]
  · rfl
  · rfl

theorem definitionAt_of_definitions {defs : Entries Definition} {compiled : Entries Compiled}
    (hs : Keeps t s) (hdistinct : defs.Distinct) (hd : (name, d) ∈ defs)
    (hrun : (definitions ctx nsid defs).runOn s = (.ok compiled, s')) :
    ∃ s₁ s₂ c, Keeps t s₁ ∧ (definitionAt ctx nsid (name, d)).runOn s₁ = (.ok c, s₂) ∧
      ∀ v, c = some v → compiled.find? name = some v := by
  induction defs generalizing s compiled with
  | nil => exact nomatch hd
  | cons e rest ih =>
    rw [definitions_cons] at hrun
    obtain ⟨c, s₁, hfirst, hrun⟩ := runOn_bind_eq_ok.mp hrun
    obtain ⟨tail, s₂, hrest, hcompiled⟩ := runOn_bind_eq_ok.mp hrun
    cases hcompiled
    rcases List.mem_cons.mp hd with he | hd
    · cases he
      refine ⟨s, s₁, c, hs, hfirst, ?_⟩
      rintro v rfl
      rw [Entries.find?_append, find?_placed, if_pos rfl, Option.some_or]
    · have hdict : ctx.lexicons.Alike ctx.lexicons := fun _ => rfl
      have hmirrors : Mirrors Eq (definitionAt ctx nsid e) (definitionAt ctx nsid e) :=
        mirrors_definitionAt nsid closed_eq hdict rfl
      obtain ⟨s₁', s₂', c', hs₁', hrun', hfound⟩ :=
        ih (hs.run hmirrors hfirst) hdistinct.tail hd hrest
      refine ⟨s₁', s₂', c', hs₁', hrun', fun v hv => ?_⟩
      rw [Entries.find?_append, find?_placed,
        if_neg (Entries.ne_of_distinct_cons hdistinct hd).symm, Option.none_or, hfound v hv]

end
end Compile

open Compile (Keeps unbounded dispatchWith nodeWith runOn_bind_eq_ok runOn_bind_of_ok)

/-- What becomes of a node: what stands at its address, as it is, and else what it compiles to. -/
def Occurrence.Stands (t : OptionTable) (c : CompiledLexicon) (x : Occurrence) : Prop :=
  match t.override? x.address with
  | some .omit => True
  | some (.replace v) => x.nullable = false → ∀ place ∈ x.place, c.at? place = some v
  | none => ∃ s s' w, Keeps t s ∧
    (dispatchWith unbounded x.context x.definition x.address).runOn s = (.ok w, s') ∧
      ∀ place ∈ x.place, ∃ v, c.at? place = some v ∧ v.kind = w.kind

variable {t : OptionTable} {c : CompiledLexicon} {x : Occurrence} {s s' : Tables}

theorem Occurrence.stands_of_node {result : Option Validator} (hs : Keeps t s)
    (hrun : (nodeWith unbounded x.context x.definition x.address).runOn s = (.ok result, s'))
    (hplace : ∀ v, result = some v → ∀ place ∈ x.place,
      c.at? place = some (if x.nullable then v.asNullable else v)) : x.Stands t c := by
  rw [nodeWith, runOn_bind_of_ok (Compile.runOn_override? _), (hs _).1] at hrun
  unfold Stands
  rcases hoverride : t.override? x.address with _ | _ | v
  · rw [hoverride] at hrun
    obtain ⟨v, s₁, hextended, hresult⟩ := runOn_bind_eq_ok.mp hrun
    cases hresult
    obtain ⟨w, s₂, hdispatch, hextend⟩ := runOn_bind_eq_ok.mp hextended
    refine ⟨s, s₂, w, hs, hdispatch, fun place hplaced => ⟨_, hplace v rfl place hplaced, ?_⟩⟩
    have hkind : v.kind = w.kind := by rw [Compile.eq_of_runOn_extend hextend]; rfl
    split
    · exact hkind
    · exact hkind
  · trivial
  · rw [hoverride] at hrun
    cases hrun
    intro hnullable place hplaced
    rw [hplace v rfl place hplaced, hnullable]
    rfl

/-- What becomes of a node, becomes of the nodes inside it. -/
theorem Occurrence.Stands.inside {e p : Definition} {q : Address} {step : Option Validator.Step}
    {nullable : Bool} (h : x.Stands t c) (hoverride : t.override? x.address = none) (he : x.context.Views x.definition e)
    (hp : e.Slot t x.address p q step nullable) :
    Occurrence.Stands t c {
      context := x.context
      definition := p
      address := q
      place := x.place.bind fun place => step.map place.inside
      nullable } := by
  unfold Stands at h
  rw [hoverride] at h
  obtain ⟨s₁, s₂, w, hs₁, hdispatch, hplaced⟩ := h
  rw [Compile.dispatchWith_unbounded, Compile.dispatchWith_of_views he] at hdispatch
  obtain ⟨s₁', s₂', result, hs₁', hnode, hinside⟩ := Compile.node_of_slot hs₁ hp hdispatch
  refine stands_of_node hs₁' hnode fun v hv place hplace => ?_
  obtain ⟨outer, houter, hstep⟩ := Option.bind_eq_some_iff.mp hplace
  obtain ⟨st, hst, rfl⟩ := Option.map_eq_some_iff.mp hstep
  obtain ⟨u, hu, hkind⟩ := hplaced outer houter
  rw [CompiledLexicon.at?_inside, hu, Option.bind_some, Validator.inside?_of_kind hkind,
    hinside v hv st hst]

/-- A reference that is followed compiles as what it leads to, in its own place. -/
theorem Occurrence.Stands.referent {s : RefShape} {target e : Definition} (h : x.Stands t c)
    (hequipped : (x.context.enter (x.context.qualify s.target)).Equipped)
    (hoverride : t.override? x.address = none) (hs : x.context.Views x.definition (.ref s))
    (hfollow : x.context.followRefs = true) (hlookup : x.context.lookup s.target = .ok target)
    (hscope : x.context.qualify s.target ∉ x.context.scope) (he : target.standIn? = some e) :
    Occurrence.Stands t c {
      context := x.context.enter (x.context.qualify s.target)
      definition := e
      address := x.address
      place := x.place } := by
  unfold Stands at h ⊢
  rw [hoverride] at h ⊢
  obtain ⟨s₁, s₂, w, hs₁, hdispatch, hplaced⟩ := h
  have hbody : Compile.bodyWith unbounded x.context (.ref s) x.address =
      Compile.targetWith unbounded (x.context.enter (x.context.qualify s.target)) target
        x.address := by
    rw [Compile.bodyWith, Compile.refWith, if_pos hfollow, hlookup,
      Context.follow?_of_not_mem hscope]
    rfl
  rw [Compile.dispatchWith_unbounded, Compile.dispatchWith_of_views hs, hbody,
    Compile.targetWith_eq hequipped, he] at hdispatch
  obtain ⟨v, s₃, hv, hw⟩ := runOn_bind_eq_ok.mp hdispatch
  cases hw
  exact ⟨s₁, s₂, v, hs₁, hv, hplaced⟩

namespace Document

section
variable {doc : Document} {o : CompileOptions} {name : String} {d : Definition}
  (hdistinct : doc.defs.Distinct) (hc : doc.compile o = .ok c) (hd : (name, d) ∈ doc.defs)
include hdistinct hc hd

theorem stands_definition (hplain : d.isPrimary = true → o.table.override? name ≠ none) :
    Occurrence.Stands o.table c {
      context := doc.contextAt o name
      definition := d
      address := name
      place := some { name } } := by
  obtain ⟨compiled, t, hrun, rfl⟩ := compile_eq_ok.mp hc
  obtain ⟨s₁, s₂, compiledAt, hs₁, hdefinition, hfound⟩ :=
    Compile.definitionAt_of_definitions (Compile.keeps_self _ _) hdistinct hd hrun
  rw [Compile.runOn_definitionAt fun h => by rw [(hs₁ _).1]; exact hplain h] at hdefinition
  obtain ⟨result, s₃, hnode, hresult⟩ := runOn_bind_eq_ok.mp hdefinition
  cases hresult
  refine Occurrence.stands_of_node hs₁ hnode ?_
  rintro v rfl place hplace
  obtain rfl := Option.some.inj hplace
  change (compiled.find? name).bind (·.facet? "") = some v
  rw [hfound _ rfl]
  rfl

theorem stands_facet {facet : String} {e : Definition} (hoverride : o.table.override? name = none)
    (he : (facet, some e) ∈ d.slots) :
    Occurrence.Stands o.table c {
      context := doc.contextAt o name
      definition := e
      address := Address.property name facet
      place := some { name, facet } } := by
  obtain ⟨compiled, t, hrun, rfl⟩ := compile_eq_ok.mp hc
  obtain ⟨s₁, s₂, compiledAt, hs₁, hdefinition, hfound⟩ :=
    Compile.definitionAt_of_definitions (Compile.keeps_self _ _) hdistinct hd hrun
  have hequipped : (doc.contextAt o name).Equipped := .of_overlaid (registry_contextAt doc o name)
  have hprimary : d.isPrimary = true := by
    cases d <;> first | rfl | exact nomatch he
  obtain ⟨envelope, henvelope, hdefinitionWith⟩ :=
    Compile.definitionWith_of_primary unbounded hequipped hprimary name
  rw [Compile.definitionAt, runOn_bind_of_ok (Compile.runOn_override? _), (hs₁ _).1,
    hoverride] at hdefinition
  obtain ⟨c, s₃, hcompile, hc⟩ := runOn_bind_eq_ok.mp hdefinition
  cases hc
  change (Context.compileDefinition (doc.contextAt o name) d name).runOn s₁ = _ at hcompile
  rw [Context.compileDefinition_eq, hdefinitionWith] at hcompile
  obtain ⟨vs, s₄, hfacets, hc⟩ := runOn_bind_eq_ok.mp hcompile
  cases hc
  have hslots : d.slots.Pairwise fun x y => x.1 ≠ y.1 :=
    d.slots_apart.imp fun h he => h (by rw [he])
  obtain ⟨s₁', s₂', result, hs₁', hnode, hvs⟩ :=
    Compile.node_of_facetsWith hs₁ hslots he hfacets
  refine Occurrence.stands_of_node hs₁' hnode ?_
  rintro v rfl place hplace
  obtain rfl := Option.some.inj hplace
  change (compiled.find? name).bind (·.facet? facet) = some v
  rw [hfound _ rfl]
  exact Definition.facet?_of_envelope he hvs (henvelope vs)

end

/-- Every node that occurs in a document that compiles becomes what the options say of it. -/
theorem Occurs.stands {doc : Document} {o : CompileOptions} (hdistinct : doc.defs.Distinct)
    (hc : doc.compile o = .ok c) (h : doc.Occurs o x) : x.Stands o.table c := by
  induction h with
  | definition hd hplain => exact stands_definition hdistinct hc hd hplain
  | facet hd hoverride he => exact stands_facet hdistinct hc hd hoverride he
  | inside hx hoverride he hp ih => exact ih.inside hoverride he hp
  | referent hx hoverride hs hfollow hlookup hscope he ih =>
    exact ih.referent (.of_overlaid hx.registry) hoverride hs hfollow hlookup hscope he

end Document
end Lexicon
