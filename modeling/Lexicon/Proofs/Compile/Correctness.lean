import Lexicon.Proofs.Compile.Depth
import Lexicon.Proofs.Compile.Document
import Lexicon.Proofs.Compile.Marks
import Lexicon.Proofs.Compile.Realizes

/-!
# Compilation is correct

The validator that a definition compiles to by default accepts the values that conform to the
definition (`Document.accepts_iff_conforms`). A run is followed under the invariant that no options
are given below the node at hand: then the only options there are those that the compilation adds,
which say of each property whether its object requires it. The invariant survives because the
nodes at and below one property, branch or top-level definition have no address in common with
those of another. The induction is on the bound on nesting (`correct_compileAt`).
-/

namespace Lexicon

open Address (Below Within)

structure Definition.Plain (d : Definition) : Prop extends Definition.Proper d where
  parts : ∀ s ∈ d.shapes, ∀ e ∈ s.properties, '.' ∉ e.1.toList

theorem Definition.Plain.shape {d : Definition} (h : d.Plain) {s : ObjectShape Definition}
    (hs : s ∈ d.shapes) : (object s).Plain where
  toProper := h.toProper.shape hs
  parts t ht := by
    obtain rfl : t = s := by simpa [shapes] using ht
    exact h.parts t hs

/-- A reference is plain, as nothing stands inside it. -/
theorem Definition.plain_ref (s : RefShape) : (ref s).All Plain :=
  .intro ⟨⟨nofun, nofun⟩, nofun⟩ nofun

structure Context.Plain (ctx : Context) : Prop where
  registry : ctx.registry = .builtin
  plain : ∀ r d, ctx.lexicons.definition? r = some d → d.All Definition.Plain

theorem Context.Plain.enter {ctx : Context} (h : ctx.Plain) (r : Reference) : (ctx.enter r).Plain where
  registry := h.registry
  plain := h.plain

structure Reads (ctx : Context) (dict : Dictionary) (here : Reference) : Prop where
  registry : ctx.registry = .builtin
  lexicons : ctx.lexicons = dict
  followRefs : ctx.followRefs = true
  cyclePolicy : ctx.cyclePolicy = .fail
  constPolicy : ctx.constPolicy = .default
  current : ctx.current? = some here
  plain : ∀ r d, dict.definition? r = some d → d.All Definition.Plain

section
variable {ctx : Context} {dict : Dictionary} {here : Reference} {reference : String}

theorem Reads.qualify (h : Reads ctx dict here) : ctx.qualify reference = here.resolve reference :=
  Context.qualify_of_current h.current reference

theorem Reads.tokenValidator (h : Reads ctx dict here) (a : Address) :
    ctx.tokenValidator a = Validator.string.withDefault (.string here.discriminator) := by
  unfold Context.tokenValidator Context.tokenName
  rw [h.current]

theorem Reads.enter (h : Reads ctx dict here) (r : Reference) : Reads (ctx.enter r) dict r where
  registry := h.registry
  lexicons := h.lexicons
  followRefs := h.followRefs
  cyclePolicy := h.cyclePolicy
  constPolicy := h.constPolicy
  current := rfl
  plain := h.plain

/-- Where cycles are an error, a reference that compiles leads on. -/
theorem Reads.follow? (h : Reads ctx dict here) {target : Reference} {inner : Option Context}
    (hinner : ctx.follow? target = .ok inner) : inner = some (ctx.enter target) := by
  unfold Context.follow? at hinner
  rw [h.cyclePolicy] at hinner
  split at hinner
  · exact nomatch hinner
  · exact (Except.ok.inj hinner).symm

end

namespace Compile

variable {dict : Dictionary} {here : Reference} {ctx : Context} {d : Definition} {a : Address}
  {t t' : Tables} {v : Validator} {apply : Apply}

/-- Nothing is omitted or replaced where there are no options but that a node is mandatory. -/
theorem override?_of_bare {required : Option Bool}
    (hself : t.options.getD a = { required? := required }) : t.options.override? a = none := by
  rw [OptionTable.override?, hself]

theorem eq_of_runOn_extend {w : Validator} {description : Option String} {default : Option Json}
    (hrun : (extend v description default a).runOn t = (.ok w, t')) :
    w = { v.annotate description default with
      optional := (t.options.getD a).required? != some true } := by
  have hvalue : ((extend v description default a).runOn t).1 = .ok { v.annotate description default
      with optional := (t.options.getD a).required? != some true } := by
    rw [extend_eq, runOn_bind_of_ok (runOn_optionsAt a)]
    cases (t.options.getD a).metadata? <;> rfl
  rw [hrun] at hvalue
  exact Except.ok.inj hvalue

def Clear (M : Address → Prop) (t : Tables) : Prop := ∀ q, M q → t.options.getD q = {}

theorem Clear.mono {M N : Address → Prop} (h : Clear N t) (hMN : ∀ q, M q → N q) : Clear M t :=
  fun q hq => h q (hMN q hq)

/-- What marks nodes elsewhere leaves it so. -/
theorem Clear.after {α : Type} {M N : Address → Prop} {c : Compile α}
    {result : Except CompileError α} (h : Clear M t) (hc : MarksOnly N c)
    (hMN : ∀ q, M q → ¬ N q) (hrun : c.runOn t = (result, t')) : Clear M t' :=
  fun q hq => (hc.getD_eq hrun (hMN q hq)).trans (h q hq)

/-- What compiling with `apply` gives realizes the definition, where no options are given at the
node and below. -/
def Correct (dict : Dictionary) (apply : Apply) : Prop :=
  ∀ {ctx : Context} {here : Reference} {d : Definition} {a : Address} {t t' : Tables}
    {v : Validator}, Reads ctx dict here → d.All Definition.Plain → a ≠ "" →
    Clear (Below a) t → (t.options.getD a).additional = [] →
    (dispatchWith apply ctx d a).runOn t = (.ok v, t') →
    Realizes dict here d (v.annotate d.description d.default?)

/-- A property is marked as mandatory before it is compiled, and nothing else is. -/
theorem runOn_requireIf {required : Bool} {result : Except CompileError Unit}
    (hself : t.options.getD a = {})
    (hrun : (if required then requireNode a else pure ()).runOn t = (result, t')) :
    t'.options.getD a = { required? := if required then some true else none } ∧
      MarksOnly (· = a) (if required then requireNode a else pure ()) := by
  cases required with
  | false =>
    cases hrun
    exact ⟨hself, marksOnly_pure ()⟩
  | true =>
    have hmark : (requireNode a).runOn t = (markRequired a).runOn t := by
      rw [requireNode, runOn_bind_of_ok (runOn_override? a), override?_of_bare hself]
      rfl
    rw [if_pos rfl, hmark] at hrun
    cases hrun
    refine ⟨?_, marksOnly_requireNode rfl⟩
    change ((t.options.insert a _).getD a) = _
    rw [hself, OptionTable.getD, OptionTable.get?_insert, if_pos rfl]
    rfl

/-- What the target of a reference compiles to does what the reference says. -/
theorem realizes_targetWith {s : RefShape} {target : Definition} (happly : Correct dict apply)
    (hreads : Reads ctx dict (here.resolve s.target)) (ha : a ≠ "")
    (htarget : dict.definition? (here.resolve s.target) = some target)
    (hbelow : Clear (Below a) t) (hself : (t.options.getD a).additional = [])
    (hrun : (targetWith apply ctx target a).runOn t = (.ok v, t')) :
    Realizes dict here (.ref s) (v.annotate s.description none) := by
  have hd := hreads.plain _ _ htarget
  cases target with
  | record r =>
    obtain ⟨description, key, body⟩ := r
    cases body with
    | none =>
      cases hrun
      exact realizes_ref_bare htarget rfl
    | some body =>
      have hmem : body ∈ (Definition.record ⟨description, key, some body⟩).shapes := by
        simp [Definition.shapes]
      have hobject : (Definition.object body).All Definition.Plain :=
        hd.shape hmem (hd.here.shape hmem)
      rw [targetWith_record_eq (.of_builtin hreads.registry)] at hrun
      obtain ⟨w, t₁, hw, hvalue⟩ := runOn_bind_eq_ok.mp hrun
      cases hvalue
      have hrealizes := happly hreads hobject ha hbelow hself hw
      exact Realizes.ref_record htarget rfl (hrealizes.of_kind rfl rfl rfl)
  | _ =>
    obtain ⟨w, t₁, hw, hvalue⟩ := runOn_bind_eq_ok.mp hrun
    cases hvalue
    have hrealizes := happly hreads hd ha hbelow hself hw
    exact Realizes.ref htarget (by simp) (hrealizes.of_kind rfl rfl rfl)

section
variable (happly : Correct dict apply) (hreads : Reads ctx dict here) (ha : a ≠ "")
include happly hreads ha

theorem realizes_branchWith {reference : String} {result : Option Validator}
    (hclear : Clear (Within a) t)
    (hrun : (branchWith apply ctx (.node .ref) reference a).runOn t = (.ok result, t')) :
    ∃ v, result = some v ∧ Realizes dict here (.ref { target := reference }) v := by
  have hself := hclear a (Address.within_self a)
  have hoverride := override?_of_bare hself
  rw [branchWith, runOn_bind_of_ok (runOn_override? a), hoverride] at hrun
  obtain ⟨w, t₁, hw, hrun⟩ := runOn_bind_eq_ok.mp hrun
  obtain ⟨v, t₂, hv, hresult⟩ := runOn_bind_eq_ok.mp hrun
  cases hresult
  rw [@apply_ref_eq apply _ _ (require_ref hreads.registry)] at hw
  have hrealizes := happly hreads (Definition.plain_ref _) ha (hclear.mono fun _ => .inr)
    (by rw [hself]) hw
  obtain rfl := eq_of_runOn_extend hv
  exact ⟨_, rfl, hrealizes.of_kind rfl rfl rfl⟩

theorem realizes_refWith {s : RefShape} (hbelow : Clear (Below a) t)
    (hself : (t.options.getD a).additional = [])
    (hrun : (refWith apply ctx s a).runOn t = (.ok v, t')) :
    Realizes dict here (.ref s) (v.annotate s.description none) := by
  rw [refWith, if_pos hreads.followRefs] at hrun
  -- Neither step before the target changes the tables, so the invariant holds for the target.
  obtain ⟨target, t₁, hfirst, hafter⟩ := runOn_bind_eq_ok.mp hrun
  obtain ⟨hlookup, rfl⟩ := runOn_lift_eq_ok.mp hfirst
  obtain ⟨inner, t₂, hsecond, htargetRun⟩ := runOn_bind_eq_ok.mp hafter
  obtain ⟨hinner, rfl⟩ := runOn_lift_eq_ok.mp hsecond
  obtain rfl := hreads.follow? hinner
  have htarget := Context.definition?_of_lookup hlookup
  rw [hreads.lexicons, hreads.qualify] at htarget
  rw [hreads.qualify] at htargetRun
  exact realizes_targetWith happly (hreads.enter (here.resolve s.target)) ha htarget hbelow hself
    htargetRun

end

section
variable (happly : Correct dict apply) (hmarks : MarksBelow apply) (hreads : Reads ctx dict here)
  (ha : a ≠ "")
include happly hmarks hreads ha

theorem realizes_extendedWith (hd : d.All Definition.Plain)
    (hbelow : Clear (Below a) t)
    (hself : (t.options.getD a).additional = [])
    (hrun : (extendedWith apply ctx d a).runOn t = (.ok v, t')) :
    Realizes dict here d v ∧ v.optional = ((t.options.getD a).required? != some true) := by
  obtain ⟨w, s, hw, hextend⟩ := runOn_bind_eq_ok.mp hrun
  have hrealizes := happly hreads hd ha hbelow hself hw
  have hframe := (marksOnly_dispatchWith ctx hmarks ha).getD_eq hw
    (fun h => Address.ne_of_below h rfl)
  obtain rfl := eq_of_runOn_extend hextend
  refine ⟨hrealizes.of_kind rfl rfl rfl, ?_⟩
  rw [← hframe]

theorem realizes_nodeWith {result : Option Validator} (hd : d.All Definition.Plain)
    (hbelow : Clear (Below a) t) {required : Option Bool}
    (hself : t.options.getD a = { required? := required })
    (hrun : (nodeWith apply ctx d a).runOn t = (.ok result, t')) :
    ∃ v, result = some v ∧ Realizes dict here d v ∧ v.optional = (required != some true) := by
  have hoverride := override?_of_bare hself
  rw [nodeWith, runOn_bind_of_ok (runOn_override? a), hoverride] at hrun
  obtain ⟨v, s, hv, hresult⟩ := runOn_bind_eq_ok.mp hrun
  cases hresult
  obtain ⟨hrealizes, hoptional⟩ := realizes_extendedWith happly hmarks hreads ha hd hbelow
    (by rw [hself]) hv
  rw [hself] at hoptional
  exact ⟨v, rfl, hrealizes, hoptional⟩

theorem realizes_fieldsWith (s : ObjectShape Definition) {properties : List (String × Definition)}
    {fields : List (String × Validator)} (hd : ∀ e ∈ properties, e.2.All Definition.Plain)
    (hdistinct : Entries.Distinct properties) (hparts : ∀ e ∈ properties, '.' ∉ e.1.toList)
    (hclear : ∀ e ∈ properties, Clear (Within (a.property e.1)) t)
    (hrun : (fieldsWith apply ctx s a properties).runOn t = (.ok fields, t')) :
    RealizesFields dict here s properties fields := by
  induction properties generalizing t t' fields with
  | nil =>
    cases hrun
    exact .nil
  | cons e rest ih =>
    obtain ⟨key, d⟩ := e
    have hb := Address.property_ne ha key
    have hclearself := hclear (key, d) (List.mem_cons_self ..)
    rw [fieldsWith_cons] at hrun
    -- The tables are `t` before the property is marked, `t₁` before it is compiled, and `t₂` after.
    obtain ⟨_, t₁, hrequire, hrun⟩ := runOn_bind_eq_ok.mp hrun
    obtain ⟨result, t₂, hnode, hrun⟩ := runOn_bind_eq_ok.mp hrun
    obtain ⟨hmarked, hrequires⟩ := runOn_requireIf (hclearself _ (Address.within_self _)) hrequire
    have hbelow : Clear (Below (a.property key)) t₁ :=
      (hclearself.mono fun _ => .inr).after hrequires (fun _ => Address.ne_of_below) hrequire
    obtain ⟨v, rfl, hv, hoptional⟩ := realizes_nodeWith happly hmarks hreads hb
      (hd (key, d) (List.mem_cons_self ..)) hbelow hmarked hnode
    obtain ⟨tail, t₃, hrest, hfields⟩ := runOn_bind_eq_ok.mp hrun
    have hclearrest : ∀ e ∈ rest, Clear (Within (a.property e.1)) t₂ := by
      intro e he
      have houtside : ∀ q, Within (a.property e.1) q → ¬ Within (a.property key) q :=
        fun _ => not_within_first ha hdistinct hparts he
      have hclear₁ := (hclear e (List.mem_cons_of_mem _ he)).after hrequires
        (fun q hq h => houtside q hq (.inl h)) hrequire
      exact hclear₁.after (marksOnly_nodeWith_property ctx hmarks ha key) houtside hnode
    have htail := ih (fun e he => hd e (List.mem_cons_of_mem _ he)) hdistinct.tail
      (fun e he => hparts e (List.mem_cons_of_mem _ he)) hclearrest hrest
    cases hfields
    refine .cons hv ?_ htail
    rw [hoptional]
    cases s.required.contains key <;> rfl

theorem realizes_objectWith {s : ObjectShape Definition} (hs : d = .object s ∨ d = .params s)
    (hd : d.All Definition.Plain) (hbelow : Clear (Below a) t)
    (hself : (t.options.getD a).additional = [])
    (hrun : (objectWith apply ctx s a).runOn t = (.ok v, t')) :
    Realizes dict here d (v.annotate d.description d.default?) := by
  have hshape := Definition.mem_shapes hs
  have hparts : ∀ e ∈ s.properties, e.2.All Definition.Plain := fun e he =>
    hd.inside (Definition.mem_parts.mpr (.inl ⟨s, hshape, List.mem_map_of_mem he⟩))
  have hdistinct := hd.here.distinct s hshape
  rw [objectWith_eq] at hrun
  obtain ⟨fields, t₁, hfields, hrun⟩ := runOn_bind_eq_ok.mp hrun
  have hframe := (marksOnly_fieldsWith ctx hmarks ha s s.properties).getD_eq hfields
    fun ⟨e, _, hq⟩ => Address.ne_of_below (Address.below_of_within ha hq) rfl
  have hadditional : (t₁.options.getD a).additional = [] := by rw [hframe, hself]
  rw [runOn_bind_of_ok (runOn_optionsAt a), hadditional, List.append_nil] at hrun
  cases hrun
  refine RealizesFields.realizes hs hdistinct ?_
  exact realizes_fieldsWith happly hmarks hreads ha s hparts hdistinct (hd.here.parts s hshape)
    (fun e _ => hbelow.mono fun _ => Address.below_of_within ha) hfields

theorem realizes_arrayWith {s : ArrayShape Definition} (hd : s.items.All Definition.Plain)
    (hbelow : Clear (Below a) t)
    (hrun : (arrayWith apply ctx s a).runOn t = (.ok v, t')) :
    Realizes dict here (.array s) (v.annotate s.description none) := by
  obtain ⟨result, t₁, hnode, hrun⟩ := runOn_bind_eq_ok.mp hrun
  have hitems : t.options.getD a.element = { required? := none } :=
    hbelow _ (Address.below_property ha Address.elementMark)
  obtain ⟨w, rfl, hw, _⟩ := realizes_nodeWith happly hmarks hreads (Address.element_ne ha) hd
    (hbelow.mono fun _ hq => Address.below_of_within ha (.inr hq)) hitems hnode
  cases hrun
  exact realizes_array hw

theorem realizes_branchesWith {refs : List String} {branches : List (String × Validator)}
    (index : Nat) (hclear : ∀ i, index ≤ i → Clear (Within (a.branch i)) t)
    (hrun : (branchesWith apply ctx (.node .ref) a index refs).runOn t = (.ok branches, t')) :
    RealizesBranches dict here refs branches := by
  induction refs generalizing t t' branches index with
  | nil =>
    cases hrun
    exact .nil
  | cons reference rest ih =>
    have hb := Address.branch_ne ha index
    obtain ⟨result, t₁, hbranch, hrun⟩ := runOn_bind_eq_ok.mp hrun
    obtain ⟨v, rfl, hv⟩ := realizes_branchWith happly hreads hb
      (hclear index (Nat.le_refl _)) hbranch
    obtain ⟨tail, t₂, hrest, hbranches⟩ := runOn_bind_eq_ok.mp hrun
    have hclearrest : ∀ i, index + 1 ≤ i → Clear (Within (a.branch i)) t₁ := by
      intro i hi
      refine (hclear i (by omega)).after (marksOnly_branchWith ctx hmarks hb _ reference) ?_ hbranch
      intro q hq h
      have heq := Address.eq_of_within_branch hq (.inr h)
      omega
    have htail := ih (index + 1) hclearrest hrest
    cases hbranches
    rw [hreads.qualify]
    exact .cons hv htail

theorem realizes_unionWith {s : UnionShape} (hbelow : Clear (Below a) t)
    (hrun : (unionWith apply ctx s a).runOn t = (.ok v, t')) :
    Realizes dict here (.union s) (v.annotate s.description none) := by
  obtain ⟨compiler, t₁, hcompiler, hrun⟩ := runOn_bind_eq_ok.mp hrun
  obtain ⟨hrequire, rfl⟩ := runOn_lift_eq_ok.mp hcompiler
  rw [hreads.registry] at hrequire
  obtain rfl : .node .ref = compiler := Except.ok.inj hrequire
  obtain ⟨branches, t₂, hbranches, hrun⟩ := runOn_bind_eq_ok.mp hrun
  cases hrun
  refine RealizesBranches.realizes (realizes_branchesWith happly hmarks hreads ha 0 ?_ hbranches)
  exact fun i _ => hbelow.mono fun _ => Address.below_of_within ha

theorem realizes_bodyWith (hd : d.All Definition.Plain)
    (hbelow : Clear (Below a) t)
    (hself : (t.options.getD a).additional = [])
    (hrun : (bodyWith apply ctx d a).runOn t = (.ok v, t')) :
    Realizes dict here d (v.annotate d.description d.default?) := by
  cases d with
  | object s | params s =>
    exact realizes_objectWith happly hmarks hreads ha (by simp) hd hbelow hself hrun
  | array s =>
    have hitems : s.items.All Definition.Plain :=
      hd.inside (Definition.mem_parts.mpr (.inr (by simp [Definition.nodes])))
    exact realizes_arrayWith happly hmarks hreads ha hitems hbelow hrun
  | union s => exact realizes_unionWith happly hmarks hreads ha hbelow hrun
  | ref s => exact realizes_refWith happly hreads ha hbelow hself hrun
  | string s =>
    rw [bodyWith, string_eq, hreads.constPolicy] at hrun
    obtain ⟨_, t₁, _, hvalue⟩ := runOn_bind_eq_ok.mp hrun
    cases hvalue
    exact realizes_leaf rfl
  | integer s | boolean s =>
    rw [bodyWith, hreads.constPolicy] at hrun
    cases hrun
    exact realizes_leaf rfl
  | token s =>
    rw [bodyWith, hreads.tokenValidator] at hrun
    cases hrun
    exact realizes_leaf rfl
  | blob s =>
    obtain ⟨_, t₁, _, hvalue⟩ := runOn_bind_eq_ok.mp hrun
    cases hvalue
    exact realizes_leaf rfl
  | null s | unknown s | bytes s | cidLink s =>
    cases hrun
    exact realizes_leaf rfl
  | record s | query s | procedure s | subscription s | unmodelled tag body =>
    cases hrun
    exact realizes_any rfl

end

/-- Compiling gives validators that do what the definitions say, for every bound on the nesting. -/
theorem correct_compileAt (n : Nat) : Correct dict (compileAt n) := by
  induction n with
  | zero =>
    intro ctx here d a t t' v _ _ _ _ _ hrun
    obtain ⟨_, _, _, hnever⟩ := runOn_bind_eq_ok.mp hrun
    exact nomatch hnever
  | succ n ih =>
    intro ctx here d a t t' v hreads hd ha hbelow hself hrun
    rw [compileAt, dispatchWith_eq_bodyWith hreads.registry hd.here.toProper] at hrun
    exact realizes_bodyWith ih (marksOnly_compileAt n) hreads ha hd hbelow hself hrun

theorem realizes_compileDefinition {c : Compiled} (hreads : Reads ctx dict here) (ha : a ≠ "")
    (hd : d.All Definition.Plain) (hprimary : d.isPrimary = false) (hclear : Clear (Within a) t)
    (hrun : (ctx.compileDefinition d a).runOn t = (.ok c, t')) :
    ∃ v, c = .schema v ∧ Realizes dict here d v := by
  have hself := hclear a (Address.within_self a)
  rw [Context.compileDefinition, definitionWith_of_not_primary _ _ hprimary] at hrun
  obtain ⟨v, t₁, hv, hvalue⟩ := runOn_bind_eq_ok.mp hrun
  cases hvalue
  have hrealizes := realizes_extendedWith (correct_compileAt _) (marksOnly_compileAt _) hreads ha hd
    (hclear.mono fun _ => .inr) (by rw [hself]) hv
  exact ⟨v, rfl, hrealizes.1⟩

/-- Compiling the definitions of a document one after the other. -/
theorem realizes_definitions {nsid : String} {defs : List (String × Definition)}
    {compiled : Entries Compiled} (hreads : ∀ name, Reads (ctx.enter ⟨nsid, name⟩) dict ⟨nsid, name⟩)
    (hd : ∀ e ∈ defs, e.2.All Definition.Plain) (hdistinct : Entries.Distinct defs)
    (hparts : ∀ e ∈ defs, Address.IsPart e.1) (hclear : ∀ e ∈ defs, Clear (Within e.1) t)
    (hrun : (definitions ctx nsid defs).runOn t = (.ok compiled, t')) :
    Entries.keys compiled = Entries.keys defs ∧
      ∀ name d, (name, d) ∈ defs → d.isPrimary = false →
        ∃ v, (name, Compiled.schema v) ∈ compiled ∧ Realizes dict ⟨nsid, name⟩ d v := by
  induction defs generalizing t t' compiled with
  | nil =>
    cases hrun
    exact ⟨rfl, nofun⟩
  | cons e rest ih =>
    obtain ⟨name, d⟩ := e
    obtain ⟨hname, hpart⟩ := hparts (name, d) (List.mem_cons_self ..)
    have hclearself := hclear (name, d) (List.mem_cons_self ..)
    have hoverride := override?_of_bare (hclearself name (Address.within_self name))
    rw [definitions, runOn_bind_of_ok (runOn_override? name), hoverride] at hrun
    obtain ⟨c, t₁, hdefinition, hafter⟩ := runOn_bind_eq_ok.mp hrun
    obtain ⟨tail, t₂, hrest, hcompiled⟩ := runOn_bind_eq_ok.mp hafter
    have hclearrest : ∀ e ∈ rest, Clear (Within e.1) t₁ := by
      intro e he
      have hmarks := marksOnly_definitionWith (ctx.enter ⟨nsid, name⟩) (d := d)
        (marksOnly_compileAt ((ctx.enter ⟨nsid, name⟩).depth d)) hname
      refine (hclear e (List.mem_cons_of_mem _ he)).after hmarks (fun q hq h => ?_) hdefinition
      have hne : e.1 ≠ name := Entries.ne_of_distinct_cons hdistinct he
      exact hne (Address.eq_of_within (hparts e (List.mem_cons_of_mem _ he)).2 hpart hq (.inr h))
    obtain ⟨hkeys, htail⟩ := ih (fun e he => hd e (List.mem_cons_of_mem _ he)) hdistinct.tail
      (fun e he => hparts e (List.mem_cons_of_mem _ he)) hclearrest hrest
    cases hcompiled
    refine ⟨by rw [Entries.keys_cons, Entries.keys_cons, hkeys], fun other p hp hprimary => ?_⟩
    rcases List.mem_cons.mp hp with he | hp
    · cases he
      obtain ⟨v, rfl, hrealizes⟩ := realizes_compileDefinition (hreads name) hname
        (hd (name, d) (List.mem_cons_self ..)) hprimary hclearself hdefinition
      exact ⟨v, List.mem_cons_self .., hrealizes⟩
    · obtain ⟨v, hv, hrealizes⟩ := htail other p hp hprimary
      exact ⟨v, List.mem_cons_of_mem _ hv, hrealizes⟩

end Compile

/-! ## Documents -/

/-- The keys of the properties inside a definition are single parts of addresses. -/
def Definition.PlainKeys (d : Definition) : Prop :=
  d.All fun e => ∀ s ∈ e.shapes, ∀ p ∈ s.properties, Address.IsPart p.1

structure Document.PlainKeys (doc : Document) : Prop where
  names : ∀ e ∈ doc.defs, Address.IsPart e.1
  properties : ∀ e ∈ doc.defs, e.2.PlainKeys

section
variable {dict : Dictionary} {doc : Document}

theorem Definition.PlainKeys.plain {d : Definition} (hproper : d.All Proper) (h : d.PlainKeys) :
    d.All Plain :=
  (hproper.and h).mono fun _ ⟨hproper, hkeys⟩ =>
    { toProper := hproper, parts := fun s hs e he => (hkeys s hs e he).2 }

theorem Definition.plainKeys_of_parts_eq_nil {d : Definition} (hshapes : d.shapes = [])
    (hnodes : d.nodes = []) : d.PlainKeys := by
  refine .intro (by simp [hshapes]) fun e he => ?_
  simp [parts, hshapes, hnodes] at he

theorem Definition.plainKeys_object {s : ObjectShape Definition}
    (h : ∀ p ∈ s.properties, Address.IsPart p.1 ∧ p.2.PlainKeys) : (object s).PlainKeys := by
  refine .intro (fun t ht p hp => ?_) fun e he => ?_
  · obtain rfl : t = s := by simpa [shapes] using ht
    exact (h p hp).1
  · have he : e ∈ s.parts := by simpa [parts, shapes, nodes] using he
    obtain ⟨p, hp, rfl⟩ := List.mem_map.mp he
    exact (h p hp).2

theorem Document.PlainKeys.plain (hproper : doc.Proper) (h : doc.PlainKeys) :
    ∀ e ∈ doc.defs, e.2.All Definition.Plain :=
  fun e he => (h.properties e he).plain (hproper.proper e he)

/-- The context in which a document is compiled by default, inside one of its definitions. -/
theorem reads_register (hdoc : doc.Proper) (hdict : dict.All Document.Proper)
    (hkeys : doc.PlainKeys) (hdictKeys : dict.All Document.PlainKeys) (r : Reference) :
    Reads (((Context.ofOptions { lexicons := dict }).register doc).enter r) (dict.joined doc) r := by
  have hcontext := Context.register_eq (Context.ofOptions { lexicons := dict }) doc
  have hlexicons : ((Context.ofOptions { lexicons := dict }).register doc).lexicons =
      dict.joined doc := Context.lexicons_register rfl
  rw [hlexicons] at hcontext
  rw [hcontext]
  have hboth : (dict.joined doc).All fun e => e.Proper ∧ e.PlainKeys :=
    Dictionary.All.register (fun id e he => ⟨hdict id e he, hdictKeys id e he⟩) ⟨hdoc, hkeys⟩
  exact {
    registry := Registry.overlaid_empty _
    lexicons := rfl
    followRefs := rfl
    cyclePolicy := rfl
    constPolicy := rfl
    current := rfl
    plain := fun r d hd => hboth.definition (fun _ h => h.2.plain h.1) hd }

/-- The context in which a document is compiled without compilers of the caller. -/
theorem Context.plain_register {o : CompileOptions} (hregistry : o.registry = {})
    (hdoc : doc.Proper) (hdict : Dictionary.All Document.Proper o.lexicons) (hkeys : doc.PlainKeys)
    (hdictKeys : Dictionary.All Document.PlainKeys o.lexicons) :
    ((Context.ofOptions o).register doc).Plain := by
  have hboth : Dictionary.All (fun e => e.Proper ∧ e.PlainKeys)
      ((Context.ofOptions o).register doc).lexicons :=
    Dictionary.All.register (fun id e he => ⟨hdict id e he, hdictKeys id e he⟩) ⟨hdoc, hkeys⟩
  refine ⟨?_, fun r d hd => hboth.definition (fun _ h => h.2.plain h.1) hd⟩
  rw [Context.register_eq]
  change Registry.builtin.overlaid o.registry = Registry.builtin
  rw [hregistry, Registry.overlaid_empty]

end

namespace Document

/-- Compiler correctness: what compiles by default accepts what conforms. -/
theorem accepts_iff_conforms {x : Json} {doc : Document} {dict : Dictionary}
    {c : CompiledLexicon} {name : String} {d : Definition} (hdoc : ofJson x = .ok doc)
    (hdict : dict.All Proper) (hkeys : doc.PlainKeys) (hdictKeys : dict.All PlainKeys)
    (hc : doc.compile { lexicons := dict } = .ok c) (hd : doc.definition? name = some d)
    (hprimary : d.isPrimary = false) :
    ∃ v, c.defs.find? name = some (.schema v) ∧
      ∀ y, v.accepts y = true ↔ Conforms (dict.joined doc) ⟨doc.id.getD "", name⟩ d y := by
  have hproper := proper_of_ofJson hdoc
  obtain ⟨compiled, tables, hrun, rfl⟩ := compile_eq_ok.mp hc
  obtain ⟨hnames, hdefs⟩ := Compile.realizes_definitions
    (fun name => reads_register hproper hdict hkeys hdictKeys ⟨doc.id.getD "", name⟩)
    (hkeys.plain hproper) hproper.distinct hkeys.names (fun _ _ _ _ => rfl) hrun
  obtain ⟨v, hv, hrealizes⟩ := hdefs name d (Entries.mem_of_find? hd) hprimary
  have hdistinct : Entries.Distinct compiled := by
    rw [Entries.Distinct, hnames]
    exact hproper.distinct
  exact ⟨v, Entries.find?_of_mem hdistinct hv, hrealizes.accepts_iff⟩

def album : Document where
  id := some "app.album"
  defs := [("main", .object {
    required := ["cover"]
    nullable := ["cover"]
    properties := [("cover", .ref { target := "app.photo" })] })]

def photo : Document where
  id := some "app.photo"
  defs := [("main", .object { properties := [("title", .string {})] })]

theorem ofJson_album :
    ofJson (.object [
      ("id", .string "app.album"),
      ("defs", .object [("main", .object [
        ("type", .string "object"),
        ("required", .array [.string "cover"]),
        ("nullable", .array [.string "cover"]),
        ("properties", .object [("cover", .object [
          ("type", .string "ref"), ("ref", .string "app.photo")])])])])]) = .ok album := by
  rfl

theorem proper_photo : photo.Proper :=
  @proper_of_ofJson (.object [
    ("id", .string "app.photo"),
    ("defs", .object [("main", .object [
      ("type", .string "object"),
      ("properties", .object [("title", .object [("type", .string "string")])])])])]) photo rfl

/-- A document with one object, which has one leaf. -/
theorem plainKeys_of_leaf {doc : Document} {s : ObjectShape Definition} {key : String}
    {p : Definition} (hdefs : doc.defs = [("main", .object s)]) (hs : s.properties = [(key, p)])
    (hkey : Address.IsPart key) (hshapes : p.shapes = []) (hnodes : p.nodes = []) :
    doc.PlainKeys := by
  have hobject : (Definition.object s).PlainKeys := Definition.plainKeys_object fun q hq => by
    rw [hs] at hq
    obtain rfl := List.mem_singleton.mp hq
    exact ⟨hkey, Definition.plainKeys_of_parts_eq_nil hshapes hnodes⟩
  constructor
  · simp [hdefs, Address.IsPart]
  · simpa [hdefs] using hobject

theorem plainKeys_album : album.PlainKeys :=
  plainKeys_of_leaf rfl rfl (by simp [Address.IsPart]) rfl rfl

theorem plainKeys_photo : photo.PlainKeys :=
  plainKeys_of_leaf rfl rfl (by simp [Address.IsPart]) rfl rfl

theorem accepts_iff_conforms_sample :
    ∃ c v, album.compile { lexicons := [("app.photo", photo)] } = .ok c ∧
      c.defs.find? "main" = some (.schema v) ∧
      v.accepts (.object [("cover", .null)]) = true := by
  obtain ⟨c, hc⟩ : ∃ c, album.compile { lexicons := [("app.photo", photo)] } = .ok c := ⟨_, rfl⟩
  obtain ⟨v, hv, hiff⟩ := @accepts_iff_conforms _ _ _ c "main" _ ofJson_album
    (Dictionary.all_singleton proper_photo) plainKeys_album
    (Dictionary.all_singleton plainKeys_photo) hc rfl rfl
  refine ⟨c, v, hc, hv, (hiff _).mpr ?_⟩
  rw [conforms_object_iff (.inl rfl)]
  refine ⟨_, rfl, fun key p hp => ?_⟩
  obtain ⟨rfl, rfl⟩ := Prod.mk.inj (List.mem_singleton.mp hp)
  constructor
  · rintro y (hy | ⟨hy, _⟩) hnull
    · obtain rfl := Option.some.inj hy
      exact absurd ⟨List.mem_singleton.mpr rfl, rfl⟩ hnull
    · exact nomatch hy
  · intro _ hno
    exact absurd (.inl rfl) (hno .null)

end Document
end Lexicon
