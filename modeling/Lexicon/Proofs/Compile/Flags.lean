import Lexicon.Proofs.Compile.Places
import Lexicon.Proofs.Outline.Options

/-!
# What becomes of the options

A compilation only strengthens the options: some nodes that the outline lists are mandatory in the
end (`OptionTable.Strengthens`). For each object that is compiled, which is one that occurs with
nothing in its place, the returned options say which of its properties are, and its fields are
optional accordingly (`FlagsFollow`). That is because distinct nodes have distinct addresses, so a
run that reaches a node finds the options below it as they were given, and leaves them as they are
returned (`Document.Occurs.dispatches`).
-/

namespace Lexicon

open Compile (Dispatches)

/-- Nothing is taken from the options, and nodes are only made mandatory, where nothing stands in
their place and they were not made optional, and only at addresses in `A`. -/
structure OptionTable.Strengthens (given returned : OptionTable) (A : List Address) : Prop where
  kept : ∀ q, given.get? q ≠ none → returned.get? q ≠ none
  override? : ∀ q, returned.override? q = given.override? q
  metadata? : ∀ q, (returned.getD q).metadata? = (given.getD q).metadata?
  additional : ∀ q, (returned.getD q).additional = (given.getD q).additional
  required? : ∀ q, returned.required? q ≠ given.required? q →
    returned.required? q = some true ∧ given.required? q ≠ some false ∧
      given.override? q = none ∧ q ∈ A

/-- A property that nothing stands in the place of is mandatory in the returned options if the
object requires it and it was not made optional, and else as in the given ones. Its field is
optional unless it is mandatory then; a field that the options add under the same key counts
instead. -/
def FlagsFollow (given returned : OptionTable) (s : ObjectShape Definition) (a : Address)
    (w : Validator) : Prop :=
  ∀ key p, (key, p) ∈ s.properties → given.override? (a.property key) = none →
    returned.required? (a.property key) =
        (if s.required.contains key ∧ given.required? (a.property key) ≠ some false then some true
        else given.required? (a.property key)) ∧
      (Entries.contains (given.getD a).additional key = false →
        ∃ field, w.field? key = some field ∧
          (field.optional = true ↔ returned.required? (a.property key) ≠ some true))

/-- A node inside a node is compiled between the same options, and stands inside it. -/
theorem Compile.dispatches_slot {ctx : Context} {e p : Definition} {a q : Address}
    {given returned : OptionTable} {w : Validator} {step : Option Validator.Step} {nullable : Bool}
    (hctx : ctx.Plain) (he : e.All Definition.Plain) (ha : a ≠ "")
    (h : Dispatches ctx e a given returned w)
    (hadditional : (returned.getD a).additional = (given.getD a).additional)
    (hp : e.Slot given a p q step nullable) (hoverride : given.override? q = none) :
    ∃ v, Dispatches ctx p q given returned v ∧
      ∀ st ∈ step, ∃ u, w.inside? st = some u ∧ u.kind = v.kind := by
  cases hp with
  | property hp =>
    obtain ⟨v, field, hfield, -⟩ := dispatches_property he hctx ha (.inl rfl) h hp hoverride
    exact ⟨v, hfield.dispatches, nofun⟩
  | field hp _ hadded =>
    obtain ⟨v, field, hfield, hfound⟩ := dispatches_property he hctx ha (.inl rfl) h hp hoverride
    rw [← hadditional] at hadded
    exact ⟨v, hfield.dispatches, fun st hst =>
      ⟨field, Option.some.inj hst ▸ hfound hadded, hfield.kind⟩⟩
  | items =>
    obtain ⟨v, items, hdispatches, hitems, hkind⟩ := dispatches_items hctx he ha h hoverride
    exact ⟨v, hdispatches, fun st hst => ⟨items, Option.some.inj hst ▸ hitems, hkind⟩⟩
  | branch hindex =>
    obtain ⟨v, branch, hdispatches, hbranch, hkind⟩ :=
      dispatches_branch hctx he ha h hindex hoverride
    refine ⟨v, hdispatches, fun st hst => ⟨branch, Option.some.inj hst ▸ ?_, hkind⟩⟩
    rw [Validator.inside?, hbranch, Option.map_some]

namespace Document

variable {doc : Document} {o : CompileOptions} {c : CompiledLexicon}

theorem strengthens (hdoc : doc.Proper) (hdict : Dictionary.All Proper o.lexicons)
    (hregistry : o.registry = {}) (hc : doc.compile o = .ok c) :
    o.table.Strengthens c.table ((doc.outline o.lexicons).map Outline.Entry.address) := by
  obtain ⟨compiled, t, hrun, rfl⟩ := compile_eq_ok.mp hc
  have hmarked := Compile.marked_definitions hrun
  have hunlisted : ∀ q, q ∉ (doc.outline o.lexicons).map Outline.Entry.address →
      t.options.get? q = o.table.get? q := by
    intro q hq
    have hconsults := (consults_definitions hdoc hdict hregistry).options hq ⟨o.table, []⟩
    rwa [hrun] at hconsults
  constructor
  · exact fun q => (hmarked q).ne_none
  · exact fun q => (hmarked q).unchanged.1
  · exact fun q => (hmarked q).unchanged.2.1
  · exact fun q => (hmarked q).unchanged.2.2
  · intro q hne
    obtain ⟨hrequired, hgiven, hoverride⟩ := (hmarked q).of_required?_ne hne
    refine ⟨hrequired, hgiven, hoverride, ?_⟩
    by_contra hq
    exact hne (congrArg (fun o => (Option.getD o {}).required?) (hunlisted q hq))

theorem Occurs.address_ne {x : Occurrence} (hkeys : doc.PlainKeys) (h : doc.Occurs o x) :
    x.address ≠ "" := by
  induction h with
  | definition hd _ => exact (hkeys.names _ hd).1
  | facet hd _ _ => exact Address.property_ne (hkeys.names _ hd).1 _
  | inside _ _ _ hp ih =>
    cases hp with
    | property | field => exact Address.property_ne ih _
    | items => exact Address.element_ne ih
    | branch => exact Address.branch_ne ih _
  | referent _ _ _ _ _ _ _ ih => exact ih

theorem Occurs.plain_context {x : Occurrence} (hctx : ((Context.ofOptions o).register doc).Plain)
    (h : doc.Occurs o x) : x.context.Plain where
  registry := by
    have hregister := hctx.registry
    rw [Context.register_eq] at hregister
    exact h.registry.trans hregister
  plain := h.lexicons ▸ hctx.plain

section
variable (hdoc : doc.Proper) (hdict : Dictionary.All Proper o.lexicons) (hregistry : o.registry = {})
  (hkeys : doc.PlainKeys) (hdictKeys : Dictionary.All PlainKeys o.lexicons)
include hdoc hdict hregistry hkeys hdictKeys

theorem Occurs.plain_definition {x : Occurrence} (h : doc.Occurs o x) :
    x.definition.All Definition.Plain := by
  refine h.all (fun _ => Definition.Plain.toProper) (fun hd hs => hd.shape hs)
    (fun _ _ => (Definition.plain_ref _).here) hregistry (hkeys.plain hdoc) fun id e he => ?_
  exact (hdictKeys id e he).plain (hdict id e he)

/-- A node that is compiled goes from the given options to the returned ones, and what it compiles
to stands in its place. -/
theorem Occurs.dispatches {x : Occurrence} (hc : doc.compile o = .ok c) (h : doc.Occurs o x)
    (hoverride : o.table.override? x.address = none) :
    ∃ w, Dispatches x.context x.definition x.address o.table c.table w ∧
      ∀ place ∈ x.place, ∃ u, c.at? place = some u ∧ u.kind = w.kind := by
  have hregister := Context.plain_register hregistry hdoc hdict hkeys hdictKeys
  have hadditional := (strengthens hdoc hdict hregistry hc).additional
  obtain ⟨compiled, t, hrun, rfl⟩ := compile_eq_ok.mp hc
  have hcompiles := Compile.compiles_definitions hdoc.distinct hkeys.names hrun
  induction h with
  | definition hd hplain =>
    have hprimary := Bool.eq_false_iff.mpr fun h => hplain h hoverride
    obtain ⟨u, w, hdispatches, hu, hkind⟩ :=
      Compile.dispatches_definition hcompiles hd hoverride hprimary
    exact ⟨w, hdispatches, fun place hplace => ⟨u, Option.some.inj hplace ▸ hu, hkind⟩⟩
  | facet hd hname he =>
    obtain ⟨u, w, hdispatches, hu, hkind⟩ :=
      Compile.dispatches_facet hcompiles hd hname hregister (hkeys.names _ hd).1 he hoverride
    exact ⟨w, hdispatches, fun place hplace => ⟨u, Option.some.inj hplace ▸ hu, hkind⟩⟩
  | @inside x e p q step nullable hx houter he hp ih =>
    obtain ⟨w, hdispatches, hplaced⟩ := ih houter
    have hctx := hx.plain_context hregister
    have hplain := all_of_views (fun _ => Definition.Plain.toProper) (fun hd hs => hd.shape hs)
      hctx.registry (hx.plain_definition hdoc hdict hregistry hkeys hdictKeys) he
    obtain ⟨v, hdispatches, hinside⟩ := Compile.dispatches_slot hctx hplain (hx.address_ne hkeys)
      (hdispatches.view hctx hplain he) (hadditional _) hp hoverride
    refine ⟨v, hdispatches, fun place hplace => ?_⟩
    obtain ⟨outer, houter, hstep⟩ := Option.bind_eq_some_iff.mp hplace
    obtain ⟨st, hst, rfl⟩ := Option.map_eq_some_iff.mp hstep
    obtain ⟨u, hu, hkind⟩ := hplaced outer houter
    obtain ⟨u', hu', hkind'⟩ := hinside st hst
    refine ⟨u', ?_, hkind'⟩
    rw [CompiledLexicon.at?_inside, hu, Option.bind_some, Validator.inside?_of_kind hkind, hu']
  | @referent x s target e hx _ hs hfollow hlookup hscope he ih =>
    obtain ⟨w, hdispatches, hplaced⟩ := ih hoverride
    have hctx := hx.plain_context hregister
    obtain ⟨v, hdispatches, hkind⟩ := Compile.dispatches_referent hctx (Definition.plain_ref _)
      hfollow hlookup hscope he (hdispatches.view hctx (Definition.plain_ref _) hs)
    refine ⟨v, hdispatches, fun place hplace => ?_⟩
    obtain ⟨u, hu, hukind⟩ := hplaced place hplace
    exact ⟨u, hu, hukind.trans hkind⟩

end

/-- The options are only strengthened, and the fields of objects follow them. -/
theorem compile_flags {doc : Document} {o : CompileOptions} {c : CompiledLexicon}
    (hdoc : doc.Proper) (hdict : Dictionary.All Proper o.lexicons) (hregistry : o.registry = {})
    (hc : doc.compile o = .ok c) :
    o.table.Strengthens c.table ((doc.outline o.lexicons).map Outline.Entry.address) ∧
      (doc.PlainKeys → Dictionary.All PlainKeys o.lexicons →
        ∀ x s, doc.Occurs o x → o.table.override? x.address = none →
          x.definition = .object s ∨ x.definition = .params s →
          ∃ w, Dispatches x.context x.definition x.address o.table c.table w ∧
            (∀ place ∈ x.place, ∃ u, c.at? place = some u ∧ u.kind = w.kind) ∧
            FlagsFollow o.table c.table s x.address w) := by
  have hstrengthens := strengthens hdoc hdict hregistry hc
  refine ⟨hstrengthens, fun hkeys hdictKeys x s hx hoverride hs => ?_⟩
  obtain ⟨w, hdispatches, hplaced⟩ :=
    hx.dispatches hdoc hdict hregistry hkeys hdictKeys hc hoverride
  have hctx := hx.plain_context (Context.plain_register hregistry hdoc hdict hkeys hdictKeys)
  refine ⟨w, hdispatches, hplaced, fun key p hp hoverride => ?_⟩
  obtain ⟨_, field, hfield, hfound⟩ := Compile.dispatches_property
    (hx.plain_definition hdoc hdict hregistry hkeys hdictKeys) hctx (hx.address_ne hkeys) hs
    hdispatches hp hoverride
  constructor
  · rw [OptionTable.required?, hfield.own]
    exact PathOptions.required?_mandatory_if _ _
  · intro hkey
    rw [← hstrengthens.additional] at hkey
    refine ⟨field, hfound hkey, ?_⟩
    rw [hfield.optional, bne_iff_ne]

def entitled : CompileOptions where
  lexicons := [("app.photo", photo)]
  table := .ofList [("main.cover.title", { required? := some true })]

theorem compile_flags_sample :
    ∃ c cover title, album.compile entitled = .ok c ∧
      entitled.table.required? "main.cover" = none ∧
      c.table.required? "main.cover" = some true ∧
      ((c.defs.find? "main").bind (·.facet? "")).bind (·.field? "cover") = some cover ∧
      cover.field? "title" = some title ∧ title.optional = false := by
  obtain ⟨c, hc⟩ : ∃ c, album.compile entitled = .ok c := ⟨_, rfl⟩
  have hflags := (compile_flags (proper_of_ofJson ofJson_album)
    (Dictionary.all_singleton proper_photo : Dictionary.All _ entitled.lexicons) rfl hc).2
    plainKeys_album (Dictionary.all_singleton plainKeys_photo)
  have hmain : album.Occurs entitled
      { context := album.contextAt entitled "main"
        definition := _
        address := "main"
        place := some { name := "main" } } :=
    .definition (List.mem_singleton.mpr rfl) nofun
  have hcover := hmain.inside rfl ⟨.object, rfl, rfl⟩
    (.field (List.mem_singleton.mpr rfl) (List.nodup_singleton _) rfl)
  have hphoto := hcover.referent rfl ⟨.ref, rfl, rfl⟩ rfl rfl (by decide) rfl
  obtain ⟨_, -, -, hmainFlags⟩ := hflags _ _ hmain rfl (.inl rfl)
  obtain ⟨w, -, hplaced, hphotoFlags⟩ := hflags _ _ hphoto rfl (.inl rfl)
  obtain ⟨hrequired, -⟩ := hmainFlags "cover" _ (List.mem_singleton.mpr rfl) rfl
  obtain ⟨htitle, hfield⟩ := hphotoFlags "title" _ (List.mem_singleton.mpr rfl) rfl
  obtain ⟨cover, hcover, hkind⟩ := hplaced _ rfl
  obtain ⟨title, hfield, hoptional⟩ := hfield rfl
  refine ⟨c, cover, title, hc, rfl, hrequired, hcover, ?_, ?_⟩
  · rw [Validator.field?_of_kind hkind, hfield]
  · rw [← Bool.not_eq_true, hoptional, not_not]
    exact htitle

end Document
end Lexicon
