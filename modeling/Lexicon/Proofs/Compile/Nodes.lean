import Lexicon.Proofs.Compile.Correctness
import Lexicon.Proofs.Compile.Definitions
import Lexicon.Proofs.Compile.Views

/-!
# The nodes inside a node

`Dispatches ctx d a given returned w` says that a node compiles to `w` while the options below it go
from the given ones to the returned ones. The nodes inside the node then do the same between the
same options, since no others share their addresses, and their validators stand inside `w`: there is
one lemma for each way in which nodes stand inside others. A run over properties or branches is
taken apart at one of them for that (`runOn_fieldsWith_of_mem`, `runOn_branchesWith_of_getElem?`).
`FieldOf` adds what the options say of the field that a property becomes.
-/

namespace Lexicon

open Address (Below IsPart Moves Within)

namespace Validator

def items? (v : Validator) : Option Validator :=
  match v.kind with
  | .array items _ _ => some items
  | _ => none

def branches (v : Validator) : List (String × Validator) :=
  match v.kind with
  | .tagged _ branches _ => branches
  | _ => []

theorem items?_minLength (v : Validator) (n : Nat) : (v.minLength n).items? = v.items? := by
  obtain ⟨kind, _, _, _, _⟩ := v
  cases kind <;> rfl

theorem items?_maxLength (v : Validator) (n : Nat) : (v.maxLength n).items? = v.items? := by
  obtain ⟨kind, _, _, _, _⟩ := v
  cases kind <;> rfl

theorem items?_bounded {rule : Validator → Nat → Validator} (v : Validator) (bound : Option Nat)
    (hrule : ∀ n, (rule v n).items? = v.items?) : (v.bounded rule bound).items? = v.items? := by
  cases bound with
  | none => rfl
  | some n => exact hrule n

theorem field?_of_kind {v w : Validator} (h : v.kind = w.kind) (key : String) :
    v.field? key = w.field? key := by
  unfold field? fields
  rw [h]

theorem items?_of_kind {v w : Validator} (h : v.kind = w.kind) : v.items? = w.items? := by
  unfold items?
  rw [h]

theorem branches_of_kind {v w : Validator} (h : v.kind = w.kind) : v.branches = w.branches := by
  unfold branches
  rw [h]

/-- Fields that are added to an object count before those of the same key that are there. -/
theorem field?_object_append {fields added : Entries Validator} {key : String}
    (hdistinct : fields.Distinct) (hkey : added.find? key = none) :
    (object (fields ++ added)).field? key = fields.find? key := by
  have happend : Entries.ofList (fields ++ added) = (Entries.ofList fields).insertAll added :=
    List.foldl_append
  change (Entries.ofList (fields ++ added)).find? key = _
  rw [happend, Entries.find?_insertAll_of_not_mem ((Entries.find?_eq_none_iff added key).mp hkey),
    Entries.ofList_eq_self hdistinct]

end Validator

namespace OptionTable

def omits (t : OptionTable) (a : Address) : Bool :=
  match t.override? a with
  | some .omit => true
  | _ => false

theorem omits_iff {t : OptionTable} {a : Address} :
    t.omits a = true ↔ t.override? a = some .omit := by
  unfold omits
  rcases t.override? a with _ | _ | _ <;> simp

/-- The number of branches of a union before one of them, less the omitted ones. -/
def branchesBefore (t : OptionTable) (a : Address) (index : Nat) : Nat :=
  ((List.range index).filter fun i => !t.omits (a.branch i)).length

end OptionTable

namespace Compile

variable {ctx : Context} {d p : Definition} {a : Address} {given returned u u' : OptionTable}
  {t t' : Tables} {w v : Validator} {M N : Address → Prop}

def Agree (M : Address → Prop) (u u' : OptionTable) : Prop := ∀ q, M q → u.getD q = u'.getD q

theorem Agree.mono (h : Agree N u u') (hMN : ∀ q, M q → N q) : Agree M u u' :=
  fun q hq => h q (hMN q hq)

theorem Agree.trans {u'' : OptionTable} (h : Agree M u u') (h' : Agree M u' u'') : Agree M u u'' :=
  fun q hq => (h q hq).trans (h' q hq)

theorem Agree.override? (h : Agree M u u') (ha : M a) : u.override? a = u'.override? a :=
  congrArg PathOptions.override? (h a ha)

theorem MarksOnly.agree {α : Type} {c : Compile α} {result : Except CompileError α}
    (h : MarksOnly N c) (hrun : c.runOn t = (result, t')) (hMN : ∀ q, M q → ¬ N q) :
    Agree M t'.options t.options :=
  fun q hq => h.getD_eq hrun (hMN q hq)

/-- The node compiles to `w`. Before, the options below it are the given ones, and after that they
and its own are the returned ones. -/
def Dispatches (ctx : Context) (d : Definition) (a : Address) (given returned : OptionTable)
    (w : Validator) : Prop :=
  ∃ t t' : Tables, (ctx.dispatch d a).runOn t = (.ok w, t') ∧
    Agree (Below a) t.options given ∧ Agree (Within a) t'.options returned

theorem Dispatches.congr (h : Dispatches ctx d a u u' w) (hbefore : Agree (Below a) u given)
    (hafter : Agree (Within a) u' returned) : Dispatches ctx d a given returned w := by
  obtain ⟨t, t', hrun, ht, ht'⟩ := h
  exact ⟨t, t', hrun, ht.trans hbefore, ht'.trans hafter⟩

theorem marksBelow_unbounded : MarksBelow unbounded :=
  fun compiler ctx d a ha => marksOnly_compileAt _ compiler ctx d a ha

theorem dispatch_eq_bodyWith (hctx : ctx.Plain) (hd : d.All Definition.Plain) :
    ctx.dispatch d a = bodyWith unbounded ctx d a := by
  change dispatchWith unbounded ctx d a = _
  rw [dispatchWith_unbounded, dispatchWith_eq_bodyWith hctx.registry hd.here.toProper]

/-- A node compiles as what its compiler sees. -/
theorem Dispatches.view {e : Definition} (hctx : ctx.Plain) (he : e.All Definition.Plain)
    (hview : ctx.Views d e) (h : Dispatches ctx d a given returned w) :
    Dispatches ctx e a given returned w := by
  have hdispatch : ctx.dispatch d a = ctx.dispatch e a := by
    rw [dispatch_eq_bodyWith hctx he]
    change dispatchWith unbounded ctx d a = _
    rw [dispatchWith_unbounded, dispatchWith_of_views hview]
  unfold Dispatches at h ⊢
  rwa [hdispatch] at h

theorem dispatches_extendedWith
    (hrun : (extendedWith unbounded ctx d a).runOn t = (.ok v, t')) :
    ∃ w, Dispatches ctx d a t.options t'.options w ∧ v.kind = w.kind ∧
      v.optional = (t'.options.required? a != some true) := by
  obtain ⟨w, s, hdispatch, hextend⟩ := runOn_bind_eq_ok.mp hrun
  have hoptions : t'.options = s.options := by
    have h := options_extend w d.description d.default? a s
    rwa [hextend] at h
  obtain rfl := eq_of_runOn_extend hextend
  refine ⟨w, ⟨t, s, hdispatch, fun _ _ => rfl, fun _ _ => by rw [hoptions]⟩, rfl, ?_⟩
  rw [hoptions]
  rfl

/-- A node where nothing stands in its place. -/
theorem dispatches_nodeWith {result : Option Validator}
    (hoverride : t.options.override? a = none)
    (hrun : (nodeWith unbounded ctx d a).runOn t = (.ok result, t')) :
    ∃ v w, result = some v ∧ Dispatches ctx d a t.options t'.options w ∧ v.kind = w.kind ∧
      v.optional = (t'.options.required? a != some true) := by
  rw [nodeWith, runOn_bind_of_ok (runOn_override? a), hoverride] at hrun
  obtain ⟨v, s, hextended, hresult⟩ := runOn_bind_eq_ok.mp hrun
  cases hresult
  obtain ⟨w, h⟩ := dispatches_extendedWith hextended
  exact ⟨v, w, rfl, h⟩

/-- A node that may be made mandatory first. -/
theorem dispatches_requiredNode (required : Bool) {result : Option Validator} {t₁ : Tables}
    (ha : a ≠ "") (hoverride : t.options.override? a = none)
    (hrequire : (if required then requireNode a else pure ()).runOn t = (.ok (), t₁))
    (hnode : (nodeWith unbounded ctx d a).runOn t₁ = (.ok result, t')) :
    ∃ v w, result = some v ∧ Dispatches ctx d a t.options t'.options w ∧ v.kind = w.kind ∧
      v.optional = (t'.options.required? a != some true) ∧
      t'.options.getD a = if required then (t.options.getD a).mandatory else t.options.getD a := by
  have hmarked : t₁.options.getD a =
      if required then (t.options.getD a).mandatory else t.options.getD a := by
    cases required with
    | true =>
      rw [if_pos rfl, runOn_requireNode_of_none hoverride] at hrequire
      cases hrequire
      rw [OptionTable.getD_markRequired, if_pos rfl, if_pos rfl]
    | false =>
      cases hrequire
      rfl
  have hoverride₁ : t₁.options.override? a = none := by
    rw [OptionTable.override?, hmarked, ← hoverride]
    split
    · exact PathOptions.override?_mandatory _
    · rfl
  obtain ⟨v, w, rfl, hdispatches, hkind, hoptional⟩ := dispatches_nodeWith hoverride₁ hnode
  have hbefore : Agree (Below a) t₁.options t.options :=
    (marksOnly_requireIf (M := (· = a)) required rfl).agree hrequire fun _ => Address.ne_of_below
  refine ⟨v, w, rfl, hdispatches.congr hbefore fun _ _ => rfl, hkind, hoptional, ?_⟩
  rw [← hmarked]
  exact (marksOnly_nodeWith ctx marksBelow_unbounded ha).getD_eq hnode
    fun h => Address.ne_of_below h rfl

/-! ## Properties -/

variable {s : ObjectShape Definition} {key : String} {field : Validator}

/-- The property of an object compiles to `w` and becomes this field, while the options at and below
it go from the given ones to the returned ones. -/
structure FieldOf (ctx : Context) (s : ObjectShape Definition) (a : Address)
    (given returned : OptionTable) (key : String) (p : Definition) (w field : Validator) :
    Prop where
  dispatches : Dispatches ctx p (a.property key) given returned w
  kind : field.kind = w.kind
  own : returned.getD (a.property key) =
    if s.required.contains key then (given.getD (a.property key)).mandatory
    else given.getD (a.property key)
  optional : field.optional = (returned.required? (a.property key) != some true)

theorem FieldOf.congr (h : FieldOf ctx s a u u' key p w field)
    (hbefore : Agree (Within (a.property key)) u given)
    (hafter : Agree (Within (a.property key)) u' returned) :
    FieldOf ctx s a given returned key p w field where
  dispatches := h.dispatches.congr (hbefore.mono fun _ => .inr) hafter
  kind := h.kind
  own := by
    rw [← hbefore _ (Address.within_self _), ← hafter _ (Address.within_self _)]
    exact h.own
  optional := by
    rw [h.optional, OptionTable.required?, hafter _ (Address.within_self _), OptionTable.required?]

/-- The fields of an object, taken apart into the first one and the others. -/
theorem runOn_fieldsWith_cons {properties : Entries Definition} {fields : Entries Validator}
    (hrun : (fieldsWith unbounded ctx s a ((key, p) :: properties)).runOn t = (.ok fields, t')) :
    ∃ result rest t₁ t₂,
      (if s.required.contains key then requireNode (a.property key) else pure ()).runOn t =
        (.ok (), t₁) ∧
      (nodeWith unbounded ctx p (a.property key)).runOn t₁ = (.ok result, t₂) ∧
      (fieldsWith unbounded ctx s a properties).runOn t₂ = (.ok rest, t') ∧
      fields = ((result.map fun v => if s.nullable.contains key then v.asNullable else v).map
        (Prod.mk key)).toList ++ rest := by
  rw [fieldsWith_cons] at hrun
  obtain ⟨⟨⟩, t₁, hrequire, hrun⟩ := runOn_bind_eq_ok.mp hrun
  obtain ⟨result, t₂, hnode, hrun⟩ := runOn_bind_eq_ok.mp hrun
  cases result with
  | none => exact ⟨none, fields, t₁, t₂, hrequire, hnode, hrun, rfl⟩
  | some v =>
    obtain ⟨rest, t₃, hrest, hfields⟩ := runOn_bind_eq_ok.mp hrun
    cases hfields
    exact ⟨some v, rest, t₁, t₂, hrequire, hnode, hrest, rfl⟩

theorem sublist_fieldsWith {properties : Entries Definition} {fields : Entries Validator}
    (hrun : (fieldsWith unbounded ctx s a properties).runOn t = (.ok fields, t')) :
    fields.keys.Sublist properties.keys := by
  induction properties generalizing t fields with
  | nil =>
    cases hrun
    exact .slnil
  | cons e rest ih =>
    obtain ⟨result, tail, _, _, _, _, hrest, rfl⟩ := runOn_fieldsWith_cons hrun
    cases result with
    | none => exact (ih hrest).cons _
    | some v => exact (ih hrest).cons_cons _

/-- A property is compiled between those before it and those after it. -/
theorem runOn_fieldsWith_of_mem {properties : Entries Definition} {fields : Entries Validator}
    (hp : (key, p) ∈ properties)
    (hrun : (fieldsWith unbounded ctx s a properties).runOn t = (.ok fields, t')) :
    ∃ before after first rest result t₁ t₂ t₃, properties = before ++ (key, p) :: after ∧
      (fieldsWith unbounded ctx s a before).runOn t = (.ok first, t₁) ∧
      (if s.required.contains key then requireNode (a.property key) else pure ()).runOn t₁ =
        (.ok (), t₂) ∧
      (nodeWith unbounded ctx p (a.property key)).runOn t₂ = (.ok result, t₃) ∧
      (fieldsWith unbounded ctx s a after).runOn t₃ = (.ok rest, t') ∧
      (properties.Distinct → ∀ v, result = some v →
        fields.find? key = some (if s.nullable.contains key then v.asNullable else v)) := by
  obtain ⟨before, after, rfl⟩ := List.append_of_mem hp
  rw [fieldsWith_append] at hrun
  obtain ⟨first, t₁, hfirst, hrun⟩ := runOn_bind_eq_ok.mp hrun
  obtain ⟨others, t₄, hothers, hfields⟩ := runOn_bind_eq_ok.mp hrun
  cases hfields
  obtain ⟨result, rest, t₂, t₃, hrequire, hnode, hrest, rfl⟩ := runOn_fieldsWith_cons hothers
  refine ⟨before, after, first, rest, result, t₁, t₂, t₃, rfl, hfirst, hrequire, hnode, hrest, ?_⟩
  intro hdistinct v hv
  have hnone : Entries.find? first key = none := by
    rw [Entries.find?_eq_none_iff]
    intro hkey
    obtain ⟨e, he, hkey⟩ := List.mem_map.mp ((sublist_fieldsWith hfirst).subset hkey)
    exact Entries.ne_of_distinct_append hdistinct (List.mem_append_left _ he) hkey
  rw [Entries.find?_append, hnone, Option.none_or, Entries.find?_append, find?_placed, if_pos rfl,
    hv, Option.map_some, Option.some_or]

/-- What is compiled for the other properties has no effect at and below one of them. -/
theorem fieldOf_fieldsWith {properties : Entries Definition} {fields : Entries Validator}
    (ha : a ≠ "") (hdistinct : properties.Distinct)
    (hparts : ∀ e ∈ properties, '.' ∉ e.1.toList) (hp : (key, p) ∈ properties)
    (hoverride : t.options.override? (a.property key) = none)
    (hrun : (fieldsWith unbounded ctx s a properties).runOn t = (.ok fields, t')) :
    ∃ w field, FieldOf ctx s a t.options t'.options key p w field ∧
      fields.find? key = some field := by
  obtain ⟨before, after, first, rest, result, t₁, t₂, t₃, rfl, hfirst, hrequire, hnode, hrest,
    hfound⟩ := runOn_fieldsWith_of_mem hp hrun
  have hapart : ∀ e ∈ before ++ after, ∀ q, Within (a.property key) q →
      ¬ Within (a.property e.1) q := by
    intro e he q hq hq'
    have hmem : e ∈ before ++ (key, p) :: after := by
      rw [List.mem_append] at he ⊢
      exact he.imp_right (List.mem_cons_of_mem _)
    exact Entries.ne_of_distinct_append hdistinct he
      (Address.eq_of_within_property ha (hparts e hmem) (hparts _ hp) hq' hq)
  have hbefore : Agree (Within (a.property key)) t₁.options t.options :=
    (marksOnly_fieldsWith ctx marksBelow_unbounded ha s before).agree hfirst
      fun q hq ⟨e, he, hq'⟩ => hapart e (List.mem_append_left _ he) q hq hq'
  have hafter : Agree (Within (a.property key)) t'.options t₃.options :=
    (marksOnly_fieldsWith ctx marksBelow_unbounded ha s after).agree hrest
      fun q hq ⟨e, he, hq'⟩ => hapart e (List.mem_append_right _ he) q hq hq'
  have hoverride₁ := (hbefore.override? (Address.within_self _)).trans hoverride
  obtain ⟨v, w, hv, hdispatches, hkind, hoptional, hown⟩ := dispatches_requiredNode _
    (Address.property_ne ha key) hoverride₁ hrequire hnode
  have hfield : FieldOf ctx s a t₁.options t₃.options key p w
      (if s.nullable.contains key then v.asNullable else v) := by
    split
    · exact ⟨hdispatches, hkind, hown, hoptional⟩
    · exact ⟨hdispatches, hkind, hown, hoptional⟩
  exact ⟨w, _, hfield.congr hbefore fun q hq => (hafter q hq).symm, hfound hdistinct v hv⟩

/-- A property of an object. Options may add a field with the same key, which counts then. -/
theorem dispatches_property (hd : d.All Definition.Plain) (hctx : ctx.Plain) (ha : a ≠ "")
    (hs : d = .object s ∨ d = .params s) (h : Dispatches ctx d a given returned w)
    (hp : (key, p) ∈ s.properties) (hoverride : given.override? (a.property key) = none) :
    ∃ v field, FieldOf ctx s a given returned key p v field ∧
      (Entries.contains (returned.getD a).additional key = false → w.field? key = some field) := by
  obtain ⟨t, t', hrun, hbefore, hafter⟩ := h
  have hshape := Definition.mem_shapes hs
  have hbody : bodyWith unbounded ctx d a = objectWith unbounded ctx s a := by
    rcases hs with rfl | rfl <;> rfl
  rw [dispatch_eq_bodyWith hctx hd, hbody, objectWith_eq] at hrun
  obtain ⟨fields, t₁, hfields, hrun⟩ := runOn_bind_eq_ok.mp hrun
  rw [runOn_bind_of_ok (runOn_optionsAt a)] at hrun
  cases hrun
  have hproperty : ∀ q, Within (a.property key) q → Below a q := fun _ => Address.below_of_within ha
  have hbefore := hbefore.mono hproperty
  have hoverride' := (hbefore.override? (Address.within_self _)).trans hoverride
  obtain ⟨v, field, hfield, hfound⟩ := fieldOf_fieldsWith ha (hd.here.distinct s hshape)
    (hd.here.parts s hshape) hp hoverride' hfields
  refine ⟨v, field, hfield.congr hbefore (hafter.mono fun q hq => .inr (hproperty q hq)), ?_⟩
  intro hadditional
  rw [← hafter a (Address.within_self a), Entries.contains, Option.isSome_eq_false_iff,
    Option.isNone_iff_eq_none] at hadditional
  have hdistinct : Entries.Distinct fields :=
    (sublist_fieldsWith hfields).nodup (hd.here.distinct s hshape)
  rw [Validator.field?_object_append hdistinct hadditional, hfound]

/-! ## Elements, branches and targets -/

theorem dispatches_items {s : ArrayShape Definition} (hctx : ctx.Plain)
    (hd : (Definition.array s).All Definition.Plain) (ha : a ≠ "")
    (h : Dispatches ctx (.array s) a given returned w)
    (hoverride : given.override? a.element = none) :
    ∃ v items, Dispatches ctx s.items a.element given returned v ∧ w.items? = some items ∧
      items.kind = v.kind := by
  obtain ⟨t, t', hrun, hbefore, hafter⟩ := h
  rw [dispatch_eq_bodyWith hctx hd] at hrun
  obtain ⟨result, t₁, hnode, hw⟩ := runOn_bind_eq_ok.mp hrun
  cases hw
  have hitems : ∀ q, Within a.element q → Below a q := fun _ => Address.below_of_within ha
  have hbefore := hbefore.mono hitems
  obtain ⟨items, v, rfl, hdispatches, hkind, -⟩ := dispatches_nodeWith
    ((hbefore.override? (Address.within_self _)).trans hoverride) hnode
  refine ⟨v, items, hdispatches.congr (hbefore.mono fun _ => .inr) ?_, ?_, hkind⟩
  · exact hafter.mono fun q hq => .inr (hitems q hq)
  · rw [Validator.items?_bounded _ _ (Validator.items?_maxLength _),
      Validator.items?_bounded _ _ (Validator.items?_minLength _)]
    rfl

theorem runOn_branchesWith_cons {reference : String} {refs : List String} {index : Nat}
    {branches : List (String × Validator)} {compiler : TypeCompiler}
    (hcompiler : ctx.registry.require "ref" = .ok compiler)
    (hrun : (branchesWith unbounded ctx compiler a index (reference :: refs)).runOn t =
      (.ok branches, t')) :
    ∃ result rest t₁,
      (nodeWith unbounded ctx (.ref { target := reference }) (a.branch index)).runOn t =
        (.ok result, t₁) ∧
      (branchesWith unbounded ctx compiler a (index + 1) refs).runOn t₁ = (.ok rest, t') ∧
      branches = (result.map (Prod.mk (ctx.qualify reference).discriminator)).toList ++ rest := by
  obtain ⟨result, t₁, hbranch, hrun⟩ := runOn_bind_eq_ok.mp hrun
  rw [branchWith_eq_nodeWith hcompiler] at hbranch
  cases result with
  | none => exact ⟨none, branches, t₁, hbranch, hrun, rfl⟩
  | some v =>
    obtain ⟨rest, t₂, hrest, hbranches⟩ := runOn_bind_eq_ok.mp hrun
    cases hbranches
    exact ⟨some v, rest, t₁, hbranch, hrest, rfl⟩

/-- A node that compiles leaves no validator only where it is omitted. -/
theorem isSome_nodeWith {result : Option Validator}
    (hrun : (nodeWith unbounded ctx d a).runOn t = (.ok result, t')) :
    result.isSome = !t.options.omits a := by
  rw [nodeWith, runOn_bind_of_ok (runOn_override? a)] at hrun
  unfold OptionTable.omits
  rcases hoverride : t.options.override? a with _ | _ | v
  · rw [hoverride] at hrun
    obtain ⟨v, s, _, hresult⟩ := runOn_bind_eq_ok.mp hrun
    cases hresult
    rfl
  · rw [hoverride] at hrun
    cases hrun
    rfl
  · rw [hoverride] at hrun
    cases hrun
    rfl

theorem omits_nodeWith {result : Except CompileError (Option Validator)}
    (hrun : (nodeWith unbounded ctx d a).runOn t = (result, t')) :
    t'.options.omits = t.options.omits := by
  have hself : a = a := rfl
  have heffect := (mirrors_self closed_eq (fun _ _ => id) ctx d hself).effect t
  rw [hrun] at heffect
  funext q
  rw [OptionTable.omits, OptionTable.omits, heffect.override? q]

section
variable {compiler : TypeCompiler} (hcompiler : ctx.registry.require "ref" = .ok compiler)
include hcompiler

/-- There is a branch for each reference that is not omitted. -/
theorem length_branchesWith {refs : List String} {index : Nat}
    {branches : List (String × Validator)}
    (hrun : (branchesWith unbounded ctx compiler a index refs).runOn t = (.ok branches, t')) :
    branches.length =
      ((List.range' index refs.length).filter fun i => !t.options.omits (a.branch i)).length := by
  induction refs generalizing t index branches with
  | nil =>
    cases hrun
    rfl
  | cons reference rest ih =>
    obtain ⟨result, tail, t₁, hnode, hrest, rfl⟩ := runOn_branchesWith_cons hcompiler hrun
    rw [List.length_append, ih hrest, omits_nodeWith hnode, List.length_cons, List.range'_succ,
      List.filter_cons, ← isSome_nodeWith hnode]
    cases result with
    | none => exact Nat.zero_add _
    | some v => exact Nat.add_comm 1 _

/-- A branch of a union is compiled between those before it and those after it. The omitted ones
before it do not count. -/
theorem runOn_branchesWith_of_getElem? {refs : List String} {i : Nat} {reference : String}
    {branches : List (String × Validator)} (hi : refs[i]? = some reference)
    (hrun : (branchesWith unbounded ctx compiler a 0 refs).runOn t = (.ok branches, t')) :
    ∃ first rest result t₁ t₂,
      (branchesWith unbounded ctx compiler a 0 (refs.take i)).runOn t = (.ok first, t₁) ∧
      (nodeWith unbounded ctx (.ref { target := reference }) (a.branch i)).runOn t₁ =
        (.ok result, t₂) ∧
      (branchesWith unbounded ctx compiler a (i + 1) (refs.drop (i + 1))).runOn t₂ =
        (.ok rest, t') ∧
      ∀ v, result = some v → branches[t.options.branchesBefore a i]? =
        some ((ctx.qualify reference).discriminator, v) := by
  obtain ⟨hlt, rfl⟩ := List.getElem?_eq_some_iff.mp hi
  have hlength : (refs.take i).length = i := List.length_take_of_le hlt.le
  rw [← List.take_append_drop i refs, List.drop_eq_getElem_cons hlt, branchesWith_append, hlength,
    Nat.zero_add] at hrun
  obtain ⟨first, t₁, hfirst, hrun⟩ := runOn_bind_eq_ok.mp hrun
  obtain ⟨others, t₃, hothers, hbranches⟩ := runOn_bind_eq_ok.mp hrun
  cases hbranches
  obtain ⟨result, rest, t₂, hnode, hrest, rfl⟩ := runOn_branchesWith_cons hcompiler hothers
  refine ⟨first, rest, result, t₁, t₂, hfirst, hnode, hrest, ?_⟩
  rintro v rfl
  have hbefore : t.options.branchesBefore a i = first.length := by
    rw [length_branchesWith hcompiler hfirst, hlength, OptionTable.branchesBefore,
      List.range_eq_range']
  rw [hbefore, List.getElem?_append_right (Nat.le_refl _), Nat.sub_self]
  rfl

end

theorem dispatches_branch {s : UnionShape} {reference : String} {index : Nat} (hctx : ctx.Plain)
    (hd : (Definition.union s).All Definition.Plain) (ha : a ≠ "")
    (h : Dispatches ctx (.union s) a given returned w) (hindex : s.refs[index]? = some reference)
    (hoverride : given.override? (a.branch index) = none) :
    ∃ v branch, Dispatches ctx (.ref { target := reference }) (a.branch index) given returned v ∧
      w.branches[given.branchesBefore a index]? =
        some ((ctx.qualify reference).discriminator, branch) ∧ branch.kind = v.kind := by
  obtain ⟨t, t', hrun, hbefore, hafter⟩ := h
  rw [dispatch_eq_bodyWith hctx hd, bodyWith, unionWith] at hrun
  obtain ⟨compiler, t₁, hrequire, hbody⟩ := runOn_bind_eq_ok.mp hrun
  obtain ⟨hcompiler, rfl⟩ := runOn_lift_eq_ok.mp hrequire
  obtain ⟨branches, t₂, hbranches, hw⟩ := runOn_bind_eq_ok.mp hbody
  cases hw
  have hbranch : ∀ i q, Within (a.branch i) q → Below a q := fun _ _ => Address.below_of_within ha
  have hsame : given.branchesBefore a index = t₁.options.branchesBefore a index := by
    have hoverrides : ∀ i, t₁.options.override? (a.branch i) = given.override? (a.branch i) :=
      fun i => hbefore.override? (hbranch i _ (Address.within_self _))
    simp only [OptionTable.branchesBefore, OptionTable.omits, hoverrides]
  have hbefore := hbefore.mono (hbranch index)
  obtain ⟨first, rest, result, t₃, t₄, hfirst, hnode, hrest, hfound⟩ :=
    runOn_branchesWith_of_getElem? hcompiler hindex hbranches
  -- Neither the branches before this one nor those after it are at its addresses.
  have hfirst : Agree (Within (a.branch index)) t₃.options t₁.options := by
    refine (marksOnly_branchesWith ctx marksBelow_unbounded ha compiler 0 _).agree hfirst ?_
    rintro q hq ⟨i, -, hi, hq'⟩
    have := Address.eq_of_within_branch hq hq'
    have := List.length_take_le index s.refs
    omega
  have hrest : Agree (Within (a.branch index)) t'.options t₄.options := by
    refine (marksOnly_branchesWith ctx marksBelow_unbounded ha compiler (index + 1) _).agree hrest ?_
    rintro q hq ⟨i, hi, -, hq'⟩
    have := Address.eq_of_within_branch hq hq'
    omega
  have hgiven := hfirst.trans hbefore
  obtain ⟨branch, v, hv, hdispatches, hkind, -⟩ := dispatches_nodeWith
    ((hgiven.override? (Address.within_self _)).trans hoverride) hnode
  refine ⟨v, branch, hdispatches.congr (hgiven.mono fun _ => .inr) fun q hq => ?_, ?_, hkind⟩
  · exact (hrest q hq).symm.trans (hafter q (.inr (hbranch index q hq)))
  · rw [hsame]
    exact hfound branch hv

/-- A reference that leads on is compiled as what it leads to. -/
theorem dispatches_referent {s : RefShape} {target e : Definition} (hctx : ctx.Plain)
    (hd : (Definition.ref s).All Definition.Plain) (hfollowRefs : ctx.followRefs = true)
    (hlookup : ctx.lookup s.target = .ok target) (hscope : ctx.qualify s.target ∉ ctx.scope)
    (he : target.standIn? = some e) (h : Dispatches ctx (.ref s) a given returned w) :
    ∃ v, Dispatches (ctx.enter (ctx.qualify s.target)) e a given returned v ∧ w.kind = v.kind := by
  obtain ⟨t, t', hrun, hbefore, hafter⟩ := h
  have hfollow : ctx.follow? (ctx.qualify s.target) =
      .ok (some (ctx.enter (ctx.qualify s.target))) := Context.follow?_of_not_mem hscope
  have hbody : bodyWith unbounded ctx (.ref s) a =
      targetWith unbounded (ctx.enter (ctx.qualify s.target)) target a := by
    rw [bodyWith, refWith, if_pos hfollowRefs, hlookup, hfollow]
    rfl
  rw [dispatch_eq_bodyWith hctx hd, hbody, targetWith_eq (.of_builtin (hctx.enter _).registry),
    he] at hrun
  obtain ⟨v, t₁, hv, hw⟩ := runOn_bind_eq_ok.mp hrun
  cases hw
  exact ⟨v, ⟨t, t', hv, hbefore, hafter⟩, rfl⟩

/-! ## Facets and definitions -/

theorem dispatches_facetsWith {slots : List (String × Option Definition)} {vs : Entries Validator}
    {name : String} (ha : a ≠ "")
    (hapart : slots.Pairwise fun x y =>
      x.1.toList.takeWhile (· ≠ '.') ≠ y.1.toList.takeWhile (· ≠ '.'))
    (hslot : (name, some d) ∈ slots) (hoverride : t.options.override? (a.property name) = none)
    (hrun : (facetsWith unbounded ctx a slots).runOn t = (.ok vs, t')) :
    ∃ v w, Dispatches ctx d (a.property name) t.options t'.options w ∧ vs.find? name = some v ∧
      v.kind = w.kind := by
  induction slots generalizing t vs with
  | nil => exact nomatch hslot
  | cons slot rest ih =>
    obtain ⟨first, schema⟩ := slot
    obtain ⟨hfirst, hothers⟩ := List.pairwise_cons.mp hapart
    obtain ⟨v, t₁, hfacet, hrun⟩ := runOn_bind_eq_ok.mp hrun
    obtain ⟨tail, t₂, hrest, hvs⟩ := runOn_bind_eq_ok.mp hrun
    cases hvs
    rcases List.mem_cons.mp hslot with he | hslot
    · cases he
      obtain ⟨⟨⟩, s, hrequire, hnode⟩ := runOn_bind_eq_ok.mp hfacet
      obtain ⟨result, s', hnode, hv⟩ := runOn_bind_eq_ok.mp hnode
      obtain ⟨v, w, rfl, hdispatches, hkind, -⟩ := dispatches_requiredNode true
        (Address.property_ne ha name) hoverride hrequire hnode
      cases hv
      refine ⟨v, w, hdispatches.congr (fun _ _ => rfl) fun q hq => ?_, ?_, hkind⟩
      · refine ((marksOnly_facetsWith ctx marksBelow_unbounded ha rest).getD_eq hrest ?_).symm
        rintro ⟨slot, hslot, hq'⟩
        exact hfirst slot hslot (Address.firstPart_eq_of_within_property ha hq hq')
      · rw [Entries.find?_cons, if_pos rfl, Option.getD_some]
    · have hne : first ≠ name := fun he => hfirst _ hslot (by rw [he])
      have hframe : Agree (Within (a.property name)) t₁.options t.options :=
        (marksOnly_schemaFacetWith ctx marksBelow_unbounded (Address.property_ne ha first)
          schema).agree hfacet fun q hq hq' =>
            hfirst _ hslot (Address.firstPart_eq_of_within_property ha hq' hq)
      obtain ⟨w, u, hdispatches, hfound, hkind⟩ := ih hothers hslot
        ((hframe.override? (Address.within_self _)).trans hoverride) hrest
      refine ⟨w, u, hdispatches.congr (hframe.mono fun _ => .inr) fun _ _ => rfl, ?_, hkind⟩
      rw [Entries.find?_cons, if_neg hne, hfound]

section
variable {nsid name : String} {defs : Entries Definition} {compiled : Entries Compiled}
  (h : Compiles ctx nsid defs t compiled t') (hd : (name, d) ∈ defs)
  (hoverride : t.options.override? name = none)
include h hd hoverride

theorem exists_compileDefinition :
    ∃ c s, ((ctx.enter ⟨nsid, name⟩).compileDefinition d name).runOn t = (.ok c, s) ∧
      compiled.find? name = some c ∧ Agree (Within name) s.options t'.options := by
  obtain ⟨s, hrun, hagree⟩ := h.each (name, d) hd
  rw [definitionAt, runOn_bind_of_ok (runOn_override? _), hoverride] at hrun
  obtain ⟨c, s', hc, hresult⟩ := runOn_bind_eq_ok.mp hrun
  obtain ⟨hfound, rfl⟩ := Prod.mk.inj hresult
  rw [corresponds_self_iff] at hagree
  refine ⟨c, s', hc, (Except.ok.inj hfound).symm, fun q hq => ?_⟩
  rw [OptionTable.getD, (hagree q hq).1, OptionTable.getD]

/-- A definition that is a node itself. -/
theorem dispatches_definition (hprimary : d.isPrimary = false) :
    ∃ v w, Dispatches (ctx.enter ⟨nsid, name⟩) d name t.options t'.options w ∧
      (compiled.find? name).bind (·.facet? "") = some v ∧ v.kind = w.kind := by
  obtain ⟨c, s, hrun, hfound, hagree⟩ := exists_compileDefinition h hd hoverride
  rw [Context.compileDefinition_eq, definitionWith_of_not_primary _ _ hprimary] at hrun
  obtain ⟨v, s', hextended, hc⟩ := runOn_bind_eq_ok.mp hrun
  cases hc
  obtain ⟨w, hdispatches, hkind, -⟩ := dispatches_extendedWith hextended
  refine ⟨v, w, hdispatches.congr (fun _ _ => rfl) hagree, ?_, hkind⟩
  rw [hfound]
  rfl

/-- A facet of an envelope. -/
theorem dispatches_facet {facet : String} {e : Definition} (hctx : ctx.Plain) (hname : name ≠ "")
    (hslot : (facet, some e) ∈ d.slots)
    (hfacet : t.options.override? (Address.property name facet) = none) :
    ∃ v w, Dispatches (ctx.enter ⟨nsid, name⟩) e (Address.property name facet) t.options t'.options
        w ∧ (compiled.find? name).bind (·.facet? facet) = some v ∧ v.kind = w.kind := by
  have hprimary : d.isPrimary = true := by
    cases d <;> first | rfl | exact nomatch hslot
  obtain ⟨c, s, hrun, hfound, hagree⟩ := exists_compileDefinition h hd hoverride
  obtain ⟨envelope, henvelope⟩ := Definition.exists_envelope hprimary
  rw [Context.compileDefinition_eq,
    definitionWith_of_envelope henvelope (.of_builtin (hctx.enter _).registry)] at hrun
  obtain ⟨vs, s', hfacets, hc⟩ := runOn_bind_eq_ok.mp hrun
  cases hc
  obtain ⟨v, w, hdispatches, hvs, hkind⟩ :=
    dispatches_facetsWith hname d.slots_apart hslot hfacet hfacets
  refine ⟨v, w, hdispatches.congr (fun _ _ => rfl) (hagree.mono fun q hq => ?_), ?_, hkind⟩
  · exact .inr (Address.below_of_within hname hq)
  · rw [hfound, Option.bind_some, Definition.facet?_of_envelope hslot hvs (henvelope vs)]

end

end Compile
end Lexicon
