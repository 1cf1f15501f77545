import Lexicon.Proofs.Compile.Places

/-!
# Two compilations side by side

`Parallel T Q c c'` says that two compilations, run on tables that `T` relates, fail with the same
error or give results that `Q` relates and leave tables that `T` relates. A relation of nodes is a
`Simulation` if related nodes are seen alike and the nodes that they hold or lead to are related
again, unless the options put something in their place. Related nodes then compile in parallel
(`parallel_dispatchWith`), and so do documents whose definitions are related
(`parallel_definitions`). On the same tables, and with equal validators, the two come to the same
(`respects_eq`).
-/

namespace Lexicon

def Definition.isLeaf : Definition → Bool
  | object _ | params _ | array _ | union _ | ref _ => false
  | _ => true

def Definition.valued (policy : ConstPolicy) : Definition → Validator
  | string s => s.validator policy
  | integer s => s.validator policy
  | boolean s => s.validator policy
  | _ => .any

structure Context.Beside (ctx ctx' : Context) : Prop where
  registry : ctx'.registry = ctx.registry
  followRefs : ctx'.followRefs = ctx.followRefs
  scope : ctx'.scope = ctx.scope

theorem Context.Beside.enter {ctx ctx' : Context} (h : ctx.Beside ctx') (r : Reference) :
    (ctx.enter r).Beside (ctx'.enter r) where
  registry := h.registry
  followRefs := h.followRefs
  scope := congrArg (List.cons r) h.scope

theorem Context.Beside.qualify {ctx ctx' : Context} (h : ctx.Beside ctx') (reference : String) :
    ctx'.qualify reference = ctx.qualify reference := by
  unfold Context.qualify Context.base Context.current?
  rw [h.scope]

theorem Context.Beside.equipped {ctx ctx' : Context} (h : ctx.Beside ctx') (hctx : ctx.Equipped) :
    ctx'.Equipped where
  object := by
    rw [h.registry]
    exact hctx.object
  ref := by
    rw [h.registry]
    exact hctx.ref

theorem Context.Beside.tokenValidator {ctx ctx' : Context} (h : ctx.Beside ctx') (a : Address) :
    ctx'.tokenValidator a = ctx.tokenValidator a := by
  unfold Context.tokenValidator Context.tokenName Context.current?
  rw [h.scope]

namespace Compile

inductive SameOutcome (T : Tables → Tables → Prop) {α β : Type} (Q : α → β → Prop) :
    Except CompileError α × Tables → Except CompileError β × Tables → Prop
  | ok {x : α} {y : β} {s s' : Tables} (hx : Q x y) (hs : T s s') :
    SameOutcome T Q (.ok x, s) (.ok y, s')
  | error (e : CompileError) (s s' : Tables) : SameOutcome T Q (.error e, s) (.error e, s')

/-- On related tables the two compilations come to the same. -/
def Parallel (T : Tables → Tables → Prop) {α β : Type} (Q : α → β → Prop) (c : Compile α)
    (c' : Compile β) : Prop :=
  ∀ t t', T t t' → SameOutcome T Q (c.runOn t) (c'.runOn t')

variable {T : Tables → Tables → Prop}

namespace Parallel

variable {α α' β β' : Type} {P : α → α' → Prop} {R : β → β' → Prop} {c : Compile α}
  {c' : Compile α'} {f : α → Compile β} {f' : α' → Compile β'}

theorem pure {x : α} {y : α'} (h : P x y) :
    Parallel T P (Pure.pure x : Compile α) (Pure.pure y) := fun _ _ ht => .ok h ht

theorem throw (e : CompileError) :
    Parallel T P (MonadExcept.throw e : Compile α) (MonadExcept.throw e : Compile α') :=
  fun t t' _ => .error e t t'

theorem bind (hc : Parallel T P c c') (hf : ∀ x y, P x y → Parallel T R (f x) (f' y)) :
    Parallel T R (c >>= f) (c' >>= f') := by
  intro t t' ht
  have hfirst := hc t t' ht
  rw [runOn_bind, runOn_bind]
  generalize c.runOn t = result at hfirst
  generalize c'.runOn t' = result' at hfirst
  cases hfirst with
  | ok hx hs => exact hf _ _ hx _ _ hs
  | error e s s' => exact .error e s s'

theorem map {g : α → β} {g' : α' → β'} (hc : Parallel T P c c')
    (hg : ∀ x y, P x y → R (g x) (g' y)) :
    Parallel T R (c >>= fun x => Pure.pure (g x)) (c' >>= fun y => Pure.pure (g' y)) :=
  hc.bind fun x y h => .pure (hg x y h)

theorem lift_bind {x : Except CompileError α} {f : α → Compile β} {f' : α → Compile β'}
    (hf : ∀ y, x = .ok y → Parallel T R (f y) (f' y)) :
    Parallel T R (liftM x >>= f) (liftM x >>= f') := by
  cases x with
  | error e => exact .throw e
  | ok y => exact hf y rfl

end Parallel

/-- What a relation of tables and one of validators have to respect for compilations to run in
parallel under an option table. -/
structure Respects (table : OptionTable) (T : Tables → Tables → Prop)
    (Q : Validator → Validator → Prop) : Prop where
  override? : ∀ {t t' : Tables} (a : Address), T t t' →
    t.options.override? a = table.override? a ∧ t'.options.override? a = table.override? a
  additional : ∀ {t t' : Tables} (a : Address), T t t' →
    (t'.options.getD a).additional = (t.options.getD a).additional
  requireNode : ∀ a : Address, Parallel T Eq (requireNode a) (requireNode a)
  recordMetadata : ∀ (a : Address) entries, Parallel T Eq (recordMetadata a entries)
    (recordMetadata a entries)
  extend : ∀ {v v' : Validator} description default a, Q v v' →
    Parallel T Q (extend v description default a) (extend v' description default a)
  refl : ∀ v, Q v v
  annotate : ∀ {v v' : Validator} description default, Q v v' →
    Q (v.annotate description default) (v'.annotate description default)
  asNullable : ∀ {v v' : Validator}, Q v v' → Q v.asNullable v'.asNullable
  object : ∀ {fields fields' : Entries Validator} added, fields.Related Q fields' →
    Q (.object (fields ++ added)) (.object (fields' ++ added))
  array : ∀ {v v' : Validator} (least greatest : Option Nat), Q v v' →
    Q ((Validator.array v).bounded Validator.minLength least |>.bounded Validator.maxLength greatest)
      ((Validator.array v').bounded Validator.minLength least
        |>.bounded Validator.maxLength greatest)
  taggedUnion : ∀ {branches branches' : Entries Validator} field closed,
    branches.Related Q branches' →
    Q (.taggedUnion field branches closed) (.taggedUnion field branches' closed)

abbrev NodeRelation := Context → Context → Definition → Definition → Address → Prop

def Inside (table : OptionTable) (S : NodeRelation) (ctx ctx' : Context) (p p' : Definition)
    (q : Address) : Prop :=
  table.override? q = none → S ctx ctx' p p' q

structure Follows (S : NodeRelation) (ctx ctx' : Context) (reference : String) (a : Address) :
    Prop where
  cycle : ctx.qualify reference ∈ ctx.scope → ctx'.cyclePolicy = ctx.cyclePolicy
  error : ∀ e, ctx.lookup reference = .error e → ctx'.lookup reference = .error e
  target : ∀ target, ctx.lookup reference = .ok target → ∃ target',
    ctx'.lookup reference = .ok target' ∧ (ctx.qualify reference ∉ ctx.scope →
      target'.description = target.description ∧ target'.default? = target.default? ∧
        Option.Rel (fun e e' => S (ctx.enter (ctx.qualify reference))
          (ctx'.enter (ctx.qualify reference)) e e' a) target.standIn? target'.standIn?)

/-- The definitions are seen alike, and the nodes inside them or in their place are related. -/
inductive Matches (table : OptionTable) (S : NodeRelation) (ctx ctx' : Context) (a : Address) :
    Definition → Definition → Prop
  | leaf {d : Definition} (hleaf : ∀ e, ctx.Views d e → e.isLeaf = true) :
    Matches table S ctx ctx' a d d
  | object {d d' : Definition} {s s' : ObjectShape Definition} (hd : ctx.Views d (.object s))
    (hd' : ctx'.Views d' (.object s')) (hdescription : d'.description = d.description)
    (hdefault : d'.default? = d.default?) (hrequired : s'.required = s.required)
    (hnullable : s'.nullable = s.nullable)
    (hproperties : List.Forall₂ (fun e e' => e.1 = e'.1 ∧
      Inside table S ctx ctx' e.2 e'.2 (a.property e.1)) s.properties s'.properties) :
    Matches table S ctx ctx' a d d'
  | array {d d' : Definition} {s s' : ArrayShape Definition} (hd : ctx.Views d (.array s))
    (hd' : ctx'.Views d' (.array s')) (hdescription : d'.description = d.description)
    (hdefault : d'.default? = d.default?) (hleast : s'.minLength = s.minLength)
    (hgreatest : s'.maxLength = s.maxLength)
    (hitems : Inside table S ctx ctx' s.items s'.items a.element) : Matches table S ctx ctx' a d d'
  | union {d d' : Definition} {s s' : UnionShape} (hd : ctx.Views d (.union s))
    (hd' : ctx'.Views d' (.union s')) (hdescription : d'.description = d.description)
    (hdefault : d'.default? = d.default?) (hclosed : s'.closed = s.closed)
    (hlength : s'.refs.length = s.refs.length)
    (hrefs : ∀ i r r', s.refs[i]? = some r → s'.refs[i]? = some r' →
      (table.omits (a.branch i) = false →
        (ctx.qualify r').discriminator = (ctx.qualify r).discriminator) ∧
      Inside table S ctx ctx' (.ref { target := r }) (.ref { target := r' }) (a.branch i)) :
    Matches table S ctx ctx' a d d'
  | ref {d d' : Definition} {s s' : RefShape} (hd : ctx.Views d (.ref s))
    (hd' : ctx'.Views d' (.ref s')) (hdescription : d'.description = d.description)
    (hdefault : d'.default? = d.default?) (htarget : s'.target = s.target)
    (hfollow : ctx.followRefs = true → Follows S ctx ctx' s.target a) :
    Matches table S ctx ctx' a d d'

theorem Matches.described {table : OptionTable} {S : NodeRelation} {ctx ctx' : Context} {a : Address}
    {d d' : Definition} (h : Matches table S ctx ctx' a d d') :
    d'.description = d.description ∧ d'.default? = d.default? := by
  cases h with
  | leaf _ => exact ⟨rfl, rfl⟩
  | object _ _ hdescription hdefault | array _ _ hdescription hdefault
  | union _ _ hdescription hdefault | ref _ _ hdescription hdefault =>
    exact ⟨hdescription, hdefault⟩

/-- Both definitions are seen, or they are the same. -/
theorem Matches.views {table : OptionTable} {S : NodeRelation} {ctx ctx' : Context} {a : Address}
    {d d' : Definition} (h : Matches table S ctx ctx' a d d') :
    d' = d ∨ (∃ e, ctx.Views d e) ∧ ∃ e, ctx'.Views d' e := by
  cases h with
  | leaf _ => exact .inl rfl
  | object hd hd' | array hd hd' | union hd hd' | ref hd hd' => exact .inr ⟨⟨_, hd⟩, _, hd'⟩

/-- A reference that is looked up alike leads to a related definition if that is related to
itself. -/
theorem Follows.self {S : NodeRelation} {ctx ctx' : Context} {reference : String} {a : Address}
    (hcycle : ctx'.cyclePolicy = ctx.cyclePolicy)
    (hlookup : ctx'.lookup reference = ctx.lookup reference)
    (h : ∀ target e, ctx.lookup reference = .ok target → ctx.qualify reference ∉ ctx.scope →
      target.standIn? = some e → S (ctx.enter (ctx.qualify reference))
        (ctx'.enter (ctx.qualify reference)) e e a) : Follows S ctx ctx' reference a where
  cycle _ := hcycle
  error e he := by rw [hlookup, he]
  target target htarget := by
    refine ⟨target, by rw [hlookup, htarget], fun hscope => ⟨rfl, rfl, ?_⟩⟩
    cases he : target.standIn? with
    | none => exact .none
    | some e => exact .some (h target e htarget hscope he)

/-- A definition matches itself if the nodes inside it or in its place are related to themselves. -/
theorem Matches.self {table : OptionTable} {S : NodeRelation} {ctx ctx' : Context} {a : Address}
    {d : Definition} (hbeside : ctx.Beside ctx')
    (hslot : ∀ {e p q step nullable}, ctx.Views d e → e.Slot table a p q step nullable →
      Inside table S ctx ctx' p p q)
    (hfollow : ∀ s, ctx.Views d (.ref s) → ctx.followRefs = true → Follows S ctx ctx' s.target a) :
    Matches table S ctx ctx' a d d := by
  by_cases hleaf : ∀ e, ctx.Views d e → e.isLeaf = true
  · exact .leaf hleaf
  · obtain ⟨e, hleaf⟩ := not_forall.mp hleaf
    obtain ⟨hd, he⟩ := Classical.not_imp.mp hleaf
    have hd' : ctx'.Views d e := by
      unfold Context.Views
      rw [hbeside.registry]
      exact hd
    cases e with
    | object s =>
      exact .object hd hd' rfl rfl rfl rfl
        (List.forall₂_same.mpr fun e he => ⟨rfl, hslot hd (.property he)⟩)
    | params s => exact absurd hd Context.not_views_params
    | array s => exact .array hd hd' rfl rfl rfl rfl (hslot hd .items)
    | union s =>
      refine .union hd hd' rfl rfl rfl rfl fun i r r' hr hr' => ?_
      obtain rfl := Option.some.inj (hr.symm.trans hr')
      exact ⟨fun _ => rfl, hslot hd (.branch hr)⟩
    | ref s => exact .ref hd hd' rfl rfl rfl (hfollow s hd)
    | _ => exact absurd rfl he

structure Simulation (table : OptionTable) (Q : Validator → Validator → Prop) (S : NodeRelation) :
    Prop where
  beside : ∀ {ctx ctx' d d' a}, S ctx ctx' d d' a → ctx.Beside ctx'
  equipped : ∀ {ctx ctx' d d' a}, S ctx ctx' d d' a → ctx.Equipped
  matching : ∀ {ctx ctx' d d' a}, S ctx ctx' d d' a → Matches table S ctx ctx' a d d'
  leaf : ∀ {ctx ctx' d e a}, S ctx ctx' d d a → ctx.Views d e →
    Q (e.valued ctx.constPolicy) (e.valued ctx'.constPolicy)

structure Alongside (T : Tables → Tables → Prop) (Q : Validator → Validator → Prop) (apply : Apply)
    (ctx ctx' : Context) (d d' : Definition) (a : Address) : Prop where
  description : d'.description = d.description
  default? : d'.default? = d.default?
  dispatch : Parallel T Q (dispatchWith apply ctx d a) (dispatchWith apply ctx' d' a)

section
variable {table : OptionTable} {Q : Validator → Validator → Prop} {apply : Apply}
  {ctx ctx' : Context} {d d' : Definition} {a : Address}
variable (hT : Respects table T Q)
include hT

theorem parallel_override?_bind {α β : Type} {R : α → β → Prop} {f : Option Override → Compile α}
    {f' : Option Override → Compile β}
    (hf : Parallel T R (f (table.override? a)) (f' (table.override? a))) :
    Parallel T R (override? a >>= f) (override? a >>= f') := by
  intro t t' ht
  rw [runOn_bind_of_ok (runOn_override? a), runOn_bind_of_ok (runOn_override? a),
    (hT.override? a ht).1, (hT.override? a ht).2]
  exact hf t t' ht

theorem parallel_extendedWith (h : Alongside T Q apply ctx ctx' d d' a) :
    Parallel T Q (extendedWith apply ctx d a) (extendedWith apply ctx' d' a) := by
  unfold extendedWith
  rw [h.description, h.default?]
  exact h.dispatch.bind fun v v' hv => hT.extend _ _ a hv

/-- Where nothing stands at the address, there is a validator; where something does, both nodes
become it. -/
theorem parallel_nodeWith (h : table.override? a = none → Alongside T Q apply ctx ctx' d d' a) :
    Parallel T (fun r r' => Option.Rel Q r r' ∧ r.isSome = !table.omits a)
      (nodeWith apply ctx d a) (nodeWith apply ctx' d' a) := by
  refine parallel_override?_bind hT ?_
  unfold OptionTable.omits
  rcases hoverride : table.override? a with _ | _ | v
  · exact (parallel_extendedWith hT (h hoverride)).map fun v v' hv => ⟨.some hv, rfl⟩
  · exact .pure ⟨.none, rfl⟩
  · exact .pure ⟨.some (hT.refl v), rfl⟩

theorem parallel_fieldsWith {s s' : ObjectShape Definition} (hrequired : s'.required = s.required)
    (hnullable : s'.nullable = s.nullable) {properties properties' : List (String × Definition)}
    (h : List.Forall₂ (fun e e' => e.1 = e'.1 ∧ (table.override? (a.property e.1) = none →
      Alongside T Q apply ctx ctx' e.2 e'.2 (a.property e.1))) properties properties') :
    Parallel T (Entries.Related Q) (fieldsWith apply ctx s a properties)
      (fieldsWith apply ctx' s' a properties') := by
  induction h with
  | nil => exact .pure .nil
  | @cons e e' rest rest' he _ ih =>
    obtain ⟨key, p⟩ := e
    obtain ⟨key', p'⟩ := e'
    obtain ⟨rfl, hp⟩ := he
    rw [fieldsWith_cons, fieldsWith_cons, hrequired, hnullable]
    have hrequire : Parallel T Eq
        (if s.required.contains key then requireNode (a.property key) else pure ())
        (if s.required.contains key then requireNode (a.property key) else pure ()) := by
      split
      · exact hT.requireNode _
      · exact .pure rfl
    refine hrequire.bind fun _ _ _ => (parallel_nodeWith hT hp).bind fun r r' hr => ?_
    cases hr.1 with
    | none => exact ih
    | @some v v' hv =>
      refine ih.map fun fields fields' hfields => .cons ⟨rfl, ?_⟩ hfields
      dsimp only
      split
      · exact hT.asNullable hv
      · exact hv

theorem parallel_objectWith {s s' : ObjectShape Definition} (hrequired : s'.required = s.required)
    (hnullable : s'.nullable = s.nullable)
    (h : List.Forall₂ (fun e e' => e.1 = e'.1 ∧ (table.override? (a.property e.1) = none →
      Alongside T Q apply ctx ctx' e.2 e'.2 (a.property e.1))) s.properties s'.properties) :
    Parallel T Q (objectWith apply ctx s a) (objectWith apply ctx' s' a) := by
  rw [objectWith_eq, objectWith_eq]
  refine (parallel_fieldsWith hT hrequired hnullable h).bind fun fields fields' hfields => ?_
  intro t t' ht
  rw [runOn_bind_of_ok (runOn_optionsAt a), runOn_bind_of_ok (runOn_optionsAt a),
    hT.additional a ht]
  exact .ok (hT.object _ hfields) ht

theorem parallel_arrayWith {s s' : ArrayShape Definition} (hleast : s'.minLength = s.minLength)
    (hgreatest : s'.maxLength = s.maxLength)
    (h : table.override? a.element = none →
      Alongside T Q apply ctx ctx' s.items s'.items a.element) :
    Parallel T Q (arrayWith apply ctx s a) (arrayWith apply ctx' s' a) := by
  unfold arrayWith
  rw [hleast, hgreatest]
  refine (parallel_nodeWith hT h).map fun r r' hr => hT.array _ _ ?_
  cases hr.1 with
  | none => exact hT.refl _
  | some hv => exact hv

theorem parallel_branchesWith {compiler compiler' : TypeCompiler}
    (hcompiler : ctx.registry.require "ref" = .ok compiler)
    (hcompiler' : ctx'.registry.require "ref" = .ok compiler') (hbeside : ctx.Beside ctx')
    {refs refs' : List String} (index : Nat) (hlength : refs'.length = refs.length)
    (h : ∀ i r r', refs[i]? = some r → refs'[i]? = some r' →
      (table.omits (a.branch (index + i)) = false →
        (ctx.qualify r').discriminator = (ctx.qualify r).discriminator) ∧
      (table.override? (a.branch (index + i)) = none → Alongside T Q apply ctx ctx'
        (.ref { target := r }) (.ref { target := r' }) (a.branch (index + i)))) :
    Parallel T (Entries.Related Q) (branchesWith apply ctx compiler a index refs)
      (branchesWith apply ctx' compiler' a index refs') := by
  induction refs generalizing refs' index with
  | nil =>
    obtain rfl := List.length_eq_zero_iff.mp hlength
    exact .pure .nil
  | cons r rest ih =>
    obtain ⟨r', rest', rfl⟩ := List.exists_cons_of_length_eq_add_one hlength
    have hrest := ih (index + 1) (Nat.succ_inj.mp hlength) fun i r r' hr hr' => by
      rw [Nat.succ_add_eq_add_succ]
      exact h (i + 1) r r' hr hr'
    obtain ⟨htag, hnode⟩ := h 0 r r' rfl rfl
    unfold branchesWith
    rw [branchWith_eq_nodeWith hcompiler, branchWith_eq_nodeWith hcompiler', hbeside.qualify]
    refine (parallel_nodeWith hT hnode).bind fun v v' hv => ?_
    obtain ⟨hrel, hsome⟩ := hv
    cases hrel with
    | none => exact hrest
    | some hv =>
      have homits : table.omits (a.branch index) = false := by simpa using hsome
      rw [htag homits]
      exact hrest.map fun branches branches' hbranches => .cons ⟨rfl, hv⟩ hbranches

theorem parallel_unionWith {s s' : UnionShape} (hctx : ctx.Equipped) (hbeside : ctx.Beside ctx')
    (hclosed : s'.closed = s.closed) (hlength : s'.refs.length = s.refs.length)
    (h : ∀ i r r', s.refs[i]? = some r → s'.refs[i]? = some r' →
      (table.omits (a.branch i) = false →
        (ctx.qualify r').discriminator = (ctx.qualify r).discriminator) ∧
      (table.override? (a.branch i) = none → Alongside T Q apply ctx ctx'
        (.ref { target := r }) (.ref { target := r' }) (a.branch i))) :
    Parallel T Q (unionWith apply ctx s a) (unionWith apply ctx' s' a) := by
  obtain ⟨compiler, hcompiler⟩ := hctx.ref
  have hcompiler' : ctx'.registry.require "ref" = .ok compiler := by rw [hbeside.registry, hcompiler]
  unfold unionWith
  rw [hcompiler, hcompiler', hclosed]
  refine (parallel_branchesWith hT hcompiler hcompiler' hbeside 0 hlength fun i r r' hr hr' => ?_).map
    fun branches branches' hbranches => hT.taggedUnion _ _ hbranches
  rw [Nat.zero_add]
  exact h i r r' hr hr'

theorem parallel_targetWith (hctx : ctx.Equipped) (hbeside : ctx.Beside ctx')
    (hdescription : d'.description = d.description) (hdefault : d'.default? = d.default?)
    (h : Option.Rel (fun e e' => Alongside T Q apply ctx ctx' e e' a) d.standIn? d'.standIn?) :
    Parallel T Q (targetWith apply ctx d a) (targetWith apply ctx' d' a) := by
  rw [targetWith_eq hctx, targetWith_eq (hbeside.equipped hctx), hdescription, hdefault]
  generalize d.standIn? = e at h
  generalize d'.standIn? = e' at h
  cases h with
  | none => exact .pure (hT.refl _)
  | some he =>
    dsimp only
    rw [he.description]
    exact he.dispatch.map fun v v' hv => hT.annotate _ _ hv

theorem parallel_refWith {s s' : RefShape} (hctx : ctx.Equipped) (hbeside : ctx.Beside ctx')
    (htarget : s'.target = s.target)
    (h : ctx.followRefs = true → Follows (Alongside T Q apply) ctx ctx' s.target a) :
    Parallel T Q (refWith apply ctx s a) (refWith apply ctx' s' a) := by
  unfold refWith
  rw [hbeside.followRefs, htarget, hbeside.qualify]
  split
  · rename_i hfollowRefs
    have hfollow := h hfollowRefs
    cases hlookup : ctx.lookup s.target with
    | error e =>
      rw [hfollow.error e hlookup]
      exact .throw e
    | ok target =>
      obtain ⟨target', hlookup', htargets⟩ := hfollow.target target hlookup
      rw [hlookup']
      change Parallel T Q (liftM (ctx.follow? (ctx.qualify s.target)) >>= _)
        (liftM (ctx'.follow? (ctx.qualify s.target)) >>= _)
      by_cases hscope : ctx.qualify s.target ∈ ctx.scope
      · have hsame : ctx'.follow? (ctx.qualify s.target) = ctx.follow? (ctx.qualify s.target) := by
          unfold Context.follow?
          rw [hbeside.scope, hfollow.cycle hscope]
          simp [hscope]
        rw [hsame]
        refine .lift_bind fun inner hinner => ?_
        cases inner with
        | none => exact .pure (hT.refl _)
        | some inner => exact absurd hscope (Context.follow?_eq_some hinner).2
      · have hscope' : ctx.qualify s.target ∉ ctx'.scope := by rwa [hbeside.scope]
        obtain ⟨hdescription, hdefault, hrel⟩ := htargets hscope
        rw [Context.follow?_of_not_mem hscope, Context.follow?_of_not_mem hscope']
        exact parallel_targetWith hT ⟨hctx.object, hctx.ref⟩ (hbeside.enter _) hdescription hdefault
          hrel
  · exact .pure (hT.refl _)

theorem parallel_string (ctx ctx' : Context) (s : StringShape)
    (hvalued : Q (s.validator ctx.constPolicy) (s.validator ctx'.constPolicy)) :
    Parallel T Q (Compile.string ctx s a) (Compile.string ctx' s a) := by
  rw [string_eq, string_eq]
  have hmetadata : Parallel T Eq (s.metadata.foldlM (fun _ entries => recordMetadata a entries) ())
      (s.metadata.foldlM (fun _ entries => recordMetadata a entries) ()) := by
    generalize s.metadata = metadata
    induction metadata with
    | nil => exact .pure rfl
    | cons entries rest ih =>
      rw [List.foldlM_cons]
      exact (hT.recordMetadata a entries).bind fun _ _ _ => ih
  exact hmetadata.map fun _ _ _ => hvalued

theorem parallel_leaf (hbeside : ctx.Beside ctx') (hd : d.isLeaf = true)
    (hvalued : Q (d.valued ctx.constPolicy) (d.valued ctx'.constPolicy)) :
    Parallel T Q (bodyWith apply ctx d a) (bodyWith apply ctx' d a) := by
  cases d with
  | object s | params s | array s | union s | ref s => exact nomatch hd
  | string s => exact parallel_string hT ctx ctx' s hvalued
  | integer s | boolean s => exact .pure hvalued
  | blob s => exact (hT.recordMetadata _ _).map fun _ _ _ => hT.refl _
  | token s =>
    unfold bodyWith
    rw [hbeside.tokenValidator]
    exact .pure (hT.refl _)
  | _ => exact .pure (hT.refl _)

end

theorem Follows.mono {S S' : NodeRelation} {ctx ctx' : Context} {reference : String} {a : Address}
    (h : Follows S ctx ctx' reference a)
    (hS : ∀ target e e', ctx.lookup reference = .ok target → ctx.qualify reference ∉ ctx.scope →
      target.standIn? = some e →
      S (ctx.enter (ctx.qualify reference)) (ctx'.enter (ctx.qualify reference)) e e' a →
      S' (ctx.enter (ctx.qualify reference)) (ctx'.enter (ctx.qualify reference)) e e' a) :
    Follows S' ctx ctx' reference a where
  cycle := h.cycle
  error := h.error
  target target htarget := by
    obtain ⟨target', htarget', hrel⟩ := h.target target htarget
    refine ⟨target', htarget', fun hscope => ?_⟩
    obtain ⟨hdescription, hdefault, hrel⟩ := hrel hscope
    refine ⟨hdescription, hdefault, ?_⟩
    cases hstand : target.standIn? with
    | none =>
      rw [hstand] at hrel
      generalize target'.standIn? = e' at hrel
      cases hrel
      exact .none
    | some e =>
      rw [hstand] at hrel
      generalize target'.standIn? = e' at hrel
      cases hrel with
      | some h => exact .some (hS target e _ htarget hscope hstand h)

section
variable {table : OptionTable} {Q : Validator → Validator → Prop} {S : NodeRelation}
  {ctx ctx' : Context} {d d' : Definition} {a : Address}
variable (hT : Respects table T Q) (hS : Simulation table Q S)
include hT hS

/-- One step of the recursion keeps related nodes in parallel. -/
theorem parallel_applyWith {apply : Apply}
    (happly : ∀ {ctx ctx' d d' a}, S ctx ctx' d d' a → Alongside T Q apply ctx ctx' d d' a)
    (h : S ctx ctx' d d' a) :
    Parallel T Q (dispatchWith (applyWith apply) ctx d a)
      (dispatchWith (applyWith apply) ctx' d' a) := by
  have hbeside := hS.beside h
  have hctx := hS.equipped h
  cases hS.matching h with
  | leaf hleaf =>
    unfold dispatchWith
    rw [hbeside.registry]
    refine .lift_bind fun compiler hresolve => ?_
    cases compiler with
    | anything => exact .pure (hT.refl _)
    | constant v => exact .pure (hT.refl _)
    | unsupported tag => exact .throw _
    | node type =>
      change Parallel T Q (typedWith apply ctx type d a) (typedWith apply ctx' type d a)
      rw [typedWith_eq, typedWith_eq]
      refine .lift_bind fun e he => ?_
      have hview : ctx.Views d e := ⟨type, hresolve, mapError_eq_ok.mp he⟩
      exact parallel_leaf hT hbeside (hleaf e hview) (hS.leaf h hview)
  | object hd hd' _ _ hrequired hnullable hproperties =>
    rw [dispatchWith_of_views hd, dispatchWith_of_views hd']
    exact parallel_objectWith hT hrequired hnullable
      (hproperties.imp fun _ _ he => ⟨he.1, fun hoverride => happly (he.2 hoverride)⟩)
  | array hd hd' _ _ hleast hgreatest hitems =>
    rw [dispatchWith_of_views hd, dispatchWith_of_views hd']
    exact parallel_arrayWith hT hleast hgreatest fun hoverride => happly (hitems hoverride)
  | union hd hd' _ _ hclosed hlength hrefs =>
    rw [dispatchWith_of_views hd, dispatchWith_of_views hd']
    refine parallel_unionWith hT hctx hbeside hclosed hlength fun i r r' hr hr' => ?_
    obtain ⟨htag, hnode⟩ := hrefs i r r' hr hr'
    exact ⟨htag, fun hoverride => happly (hnode hoverride)⟩
  | ref hd hd' _ _ htarget hfollow =>
    rw [dispatchWith_of_views hd, dispatchWith_of_views hd']
    exact parallel_refWith hT hctx hbeside htarget fun hfollowRefs =>
      (hfollow hfollowRefs).mono fun _ _ _ _ _ _ => happly

theorem parallel_compileAt (n : Nat) (h : S ctx ctx' d d' a) :
    Parallel T Q (dispatchWith (compileAt n) ctx d a) (dispatchWith (compileAt n) ctx' d' a) := by
  induction n generalizing ctx ctx' d d' a with
  | zero =>
    rcases (hS.matching h).views with rfl | ⟨⟨e, type, hresolve, _⟩, e', type', hresolve', _⟩
    · unfold dispatchWith
      rw [(hS.beside h).registry]
      exact .lift_bind fun _ _ => .throw _
    · unfold dispatchWith
      rw [hresolve, hresolve']
      exact .throw _
  | succ n ih =>
    refine parallel_applyWith hT hS (fun h => ?_) h
    obtain ⟨hdescription, hdefault⟩ := (hS.matching h).described
    exact ⟨hdescription, hdefault, ih h⟩

/-- Related nodes compile in parallel. -/
theorem parallel_dispatchWith (h : S ctx ctx' d d' a) :
    Parallel T Q (dispatchWith unbounded ctx d a) (dispatchWith unbounded ctx' d' a) := by
  have hleft := ctx.rank_lt_depth d
  have hright := ctx'.rank_lt_depth d'
  have hmax := parallel_compileAt hT hS (max (ctx.depth d) (ctx'.depth d')) h
  rwa [dispatchWith_congr fun compiler => compileAt_eq_unbounded (by omega) compiler,
    dispatchWith_congr fun compiler => compileAt_eq_unbounded (by omega) compiler] at hmax

theorem alongside_unbounded (h : S ctx ctx' d d' a) : Alongside T Q unbounded ctx ctx' d d' a where
  description := (hS.matching h).described.1
  default? := (hS.matching h).described.2
  dispatch := parallel_dispatchWith hT hS h

/-! ## Top-level definitions -/

theorem parallel_schemaFacetWith {schema schema' : Option Definition}
    (h : Option.Rel (fun p p' => Inside table S ctx ctx' p p' a) schema schema') :
    Parallel T Q (schemaFacetWith unbounded ctx schema a)
      (schemaFacetWith unbounded ctx' schema' a) := by
  cases h with
  | none => exact .pure (hT.refl _)
  | some hp =>
    refine (hT.requireNode a).bind fun _ _ _ => ?_
    refine (parallel_nodeWith hT fun hoverride => alongside_unbounded hT hS (hp hoverride)).map
      fun r r' hr => ?_
    cases hr.1 with
    | none => exact hT.refl _
    | some hv => exact hv

theorem parallel_facetsWith {slots slots' : List (String × Option Definition)}
    (h : List.Forall₂ (fun x x' => x.1 = x'.1 ∧ Option.Rel (fun p p' =>
      Inside table S ctx ctx' p p' (a.property x.1)) x.2 x'.2) slots slots') :
    Parallel T (Entries.Related Q) (facetsWith unbounded ctx a slots)
      (facetsWith unbounded ctx' a slots') := by
  induction h with
  | nil => exact .pure .nil
  | @cons x x' rest rest' hx _ ih =>
    obtain ⟨name, schema⟩ := x
    obtain ⟨name', schema'⟩ := x'
    obtain ⟨rfl, hschema⟩ := hx
    refine (parallel_schemaFacetWith hT hS hschema).bind fun v v' hv => ?_
    exact ih.map fun vs vs' hvs => .cons ⟨rfl, hv⟩ hvs

end

inductive MatchesDefinition (table : OptionTable) (S : NodeRelation) (ctx ctx' : Context)
    (a : Address) : Definition → Definition → Prop
  | node {d d' : Definition} (hd : d.isPrimary = false) (hd' : d'.isPrimary = false)
    (h : S ctx ctx' d d' a) : MatchesDefinition table S ctx ctx' a d d'
  | envelope {d d' : Definition} (hd : d.isPrimary = true)
    (henvelope : ∀ vs, d'.envelope vs = d.envelope vs)
    (hslots : List.Forall₂ (fun x x' => x.1 = x'.1 ∧ Option.Rel (fun p p' =>
      Inside table S ctx ctx' p p' (a.property x.1)) x.2 x'.2) d.slots d'.slots) :
    MatchesDefinition table S ctx ctx' a d d'

theorem MatchesDefinition.self {table : OptionTable} {S : NodeRelation} {ctx ctx' : Context}
    {a : Address} {d : Definition} (hnode : d.isPrimary = false → S ctx ctx' d d a)
    (hslot : ∀ {facet e}, (facet, some e) ∈ d.slots →
      Inside table S ctx ctx' e e (a.property facet)) : MatchesDefinition table S ctx ctx' a d d := by
  cases hprimary : d.isPrimary with
  | false => exact .node hprimary hprimary (hnode hprimary)
  | true =>
    refine .envelope hprimary (fun _ => rfl) (List.forall₂_same.mpr fun x hx => ⟨rfl, ?_⟩)
    obtain ⟨facet, schema⟩ := x
    cases schema with
    | none => exact .none
    | some e => exact .some (hslot hx)

end Compile

structure Compiled.Related (Q : Validator → Validator → Prop) (c c' : Compiled) : Prop where
  kind : c.kind = c'.kind
  facets : Entries.Related Q c.facets c'.facets

section
variable {Q : Validator → Validator → Prop} (hQ : ∀ v, Q v v)
include hQ

theorem Entries.Related.getD_never {vs vs' : Entries Validator} (h : vs.Related Q vs')
    (key : String) : Q ((vs.find? key).getD .never) ((vs'.find? key).getD .never) := by
  have hfound := h.find? key
  generalize vs.find? key = v at hfound
  generalize vs'.find? key = v' at hfound
  cases hfound with
  | none => exact hQ _
  | some hv => exact hv

theorem Definition.related_bodyFacets {v v' : Validator} (hv : Q v v')
    (body : Option (Body Definition)) :
    (bodyFacets body v).encoding = (bodyFacets body v').encoding ∧
      Q (bodyFacets body v).schema (bodyFacets body v').schema := by
  cases body with
  | none => exact ⟨rfl, hQ _⟩
  | some b => exact ⟨rfl, hv⟩

/-- An envelope around related facets. -/
theorem Definition.related_envelope {d : Definition} {vs vs' : Entries Validator}
    (hvs : vs.Related Q vs') {c c' : Compiled} (hc : d.envelope vs = some c)
    (hc' : d.envelope vs' = some c') : c.Related Q c' := by
  have hfacet := hvs.getD_never hQ
  have hbody := fun key => related_bodyFacets hQ (hfacet key)
  have hsame : ∀ name v, (fun e e' : String × Validator => e.1 = e'.1 ∧ Q e.2 e'.2) (name, v)
    (name, v) := fun name v => ⟨rfl, hQ v⟩
  cases d with
  | record s =>
    cases hc
    cases hc'
    exact ⟨rfl, .cons (hsame _ _) (.cons ⟨rfl, hfacet _⟩ .nil)⟩
  | query s =>
    cases hc
    cases hc'
    obtain ⟨hencoding, hschema⟩ := hbody "output.schema" s.output
    refine ⟨rfl, .cons ⟨rfl, hfacet _⟩ (.cons ⟨rfl, ?_⟩ (.cons ⟨rfl, hschema⟩
      (.cons (hsame _ _) .nil)))⟩
    exact hencoding ▸ hQ _
  | procedure s =>
    cases hc
    cases hc'
    obtain ⟨hinput, hinputSchema⟩ := hbody "input.schema" s.input
    obtain ⟨houtput, houtputSchema⟩ := hbody "output.schema" s.output
    refine ⟨rfl, .cons ⟨rfl, hfacet _⟩ (.cons ⟨rfl, ?_⟩ (.cons ⟨rfl, hinputSchema⟩
      (.cons ⟨rfl, ?_⟩ (.cons ⟨rfl, houtputSchema⟩ (.cons (hsame _ _) .nil)))))⟩
    · exact hinput ▸ hQ _
    · exact houtput ▸ hQ _
  | subscription s =>
    cases hc
    cases hc'
    exact ⟨rfl, .cons ⟨rfl, hfacet _⟩ (.cons ⟨rfl, hfacet _⟩ (.cons (hsame _ _) .nil))⟩
  | _ => exact nomatch hc

end

namespace Compile

variable {T : Tables → Tables → Prop} {table : OptionTable} {Q : Validator → Validator → Prop}
  {S : NodeRelation} {ctx ctx' : Context} {d d' : Definition} {a : Address}
variable (hT : Respects table T Q) (hS : Simulation table Q S) (hctx : ctx.Equipped)
  (hbeside : ctx.Beside ctx')
include hT hS hctx hbeside

theorem parallel_definitionWith (h : MatchesDefinition table S ctx ctx' a d d') :
    Parallel T (Compiled.Related Q) (definitionWith unbounded ctx d a)
      (definitionWith unbounded ctx' d' a) := by
  cases h with
  | node hd hd' h =>
    rw [definitionWith_of_not_primary _ _ hd, definitionWith_of_not_primary _ _ hd']
    exact (parallel_extendedWith hT (alongside_unbounded hT hS h)).map fun v v' hv =>
      ⟨rfl, .cons ⟨rfl, hv⟩ .nil⟩
  | envelope hd henvelope hslots =>
    obtain ⟨c, hc⟩ := Definition.exists_envelope hd
    have hc' : ∀ vs, d'.envelope vs = some (c vs) := fun vs => (henvelope vs).trans (hc vs)
    rw [definitionWith_of_envelope hc hctx, definitionWith_of_envelope hc' (hbeside.equipped hctx)]
    exact (parallel_facetsWith hT hS hslots).map fun vs vs' hvs =>
      Definition.related_envelope hT.refl hvs (hc vs) (hc vs')

theorem parallel_definitions {nsid : String} {defs defs' : Entries Definition}
    (h : List.Forall₂ (fun e e' => e.1 = e'.1 ∧ (table.override? e.1 = none →
      MatchesDefinition table S (ctx.enter ⟨nsid, e.1⟩) (ctx'.enter ⟨nsid, e.1⟩) e.1 e.2 e'.2))
      defs defs') :
    Parallel T (Entries.Related (Compiled.Related Q)) (definitions ctx nsid defs)
      (definitions ctx' nsid defs') := by
  induction h with
  | nil => exact .pure .nil
  | @cons e e' rest rest' he _ ih =>
    obtain ⟨name, d⟩ := e
    obtain ⟨name', d'⟩ := e'
    obtain ⟨rfl, hmatches⟩ := he
    have hdefinition : Parallel T (Option.Rel (Compiled.Related Q)) (definitionAt ctx nsid (name, d))
        (definitionAt ctx' nsid (name, d')) := by
      refine parallel_override?_bind hT ?_
      rcases hoverride : table.override? name with _ | _ | v
      · rw [Context.compileDefinition_eq, Context.compileDefinition_eq]
        have hinner : (ctx.enter ⟨nsid, name⟩).Equipped := ⟨hctx.object, hctx.ref⟩
        exact (parallel_definitionWith hT hS hinner (hbeside.enter _) (hmatches hoverride)).map
          fun _ _ hc => .some hc
      · exact .pure .none
      · exact .pure (.some ⟨rfl, .cons ⟨rfl, hT.refl v⟩ .nil⟩)
    rw [definitions_cons, definitions_cons]
    refine hdefinition.bind fun c c' hc => ih.map fun compiled compiled' hcompiled => ?_
    cases hc with
    | none => exact hcompiled
    | some hc => exact .cons ⟨rfl, hc⟩ hcompiled

end Compile

inductive CompiledLexicon.Related (T : Tables → Tables → Prop) (Q : Validator → Validator → Prop) :
    Except CompileError CompiledLexicon → Except CompileError CompiledLexicon → Prop
  | ok {c c' : CompiledLexicon} (hid : c.id = c'.id)
    (hdefs : Entries.Related (Compiled.Related Q) c.defs c'.defs)
    (htables : T ⟨c.table, c.metadata⟩ ⟨c'.table, c'.metadata⟩) : Related T Q (.ok c) (.ok c')
  | error (e : CompileError) : Related T Q (.error e) (.error e)

/-- If one of the compilations succeeds, so does the other one. -/
theorem CompiledLexicon.Related.exists_of_ok {T : Tables → Tables → Prop}
    {Q : Validator → Validator → Prop} {result result' : Except CompileError CompiledLexicon}
    {c₀ : CompiledLexicon} (h : Related T Q result result')
    (hc : result = .ok c₀ ∨ result' = .ok c₀) :
    ∃ c c', result = .ok c ∧ result' = .ok c' ∧ c.defs.Related (Compiled.Related Q) c'.defs := by
  cases h with
  | ok _ hdefs _ => exact ⟨_, _, rfl, rfl, hdefs⟩
  | error e => rcases hc with hc | hc <;> exact nomatch hc

theorem Document.beside_register {doc doc' : Document} {o o' : CompileOptions}
    (hregistry : o'.registry = o.registry) (hfollowRefs : o'.followRefs = o.followRefs) :
    ((Context.ofOptions o).register doc).Beside ((Context.ofOptions o').register doc') := by
  rw [Context.register_eq (Context.ofOptions o) doc, Context.register_eq (Context.ofOptions o') doc']
  exact ⟨congrArg (Registry.overlaid .builtin) hregistry, hfollowRefs, rfl⟩

/-- Documents whose definitions are related compile in parallel. -/
theorem Document.compile_parallel {T : Tables → Tables → Prop} {Q : Validator → Validator → Prop}
    {S : Compile.NodeRelation} {doc doc' : Document} {o o' : CompileOptions}
    (hT : Compile.Respects o.table T Q) (hS : Compile.Simulation o.table Q S)
    (hid : doc.id = doc'.id) (hregistry : o'.registry = o.registry)
    (hfollowRefs : o'.followRefs = o.followRefs) (htables : T ⟨o.table, []⟩ ⟨o'.table, []⟩)
    (h : List.Forall₂ (fun e e' => e.1 = e'.1 ∧ (o.table.override? e.1 = none →
      Compile.MatchesDefinition o.table S (doc.contextAt o e.1) (doc'.contextAt o' e.1) e.1 e.2
        e'.2)) doc.defs doc'.defs) :
    CompiledLexicon.Related T Q (doc.compile o) (doc'.compile o') := by
  have hoverlaid : ((Context.ofOptions o).register doc).registry =
      Registry.builtin.overlaid o.registry := registry_contextAt doc o ""
  unfold contextAt at h
  rw [← hid] at h
  have hparallel := Compile.parallel_definitions hT hS (.of_overlaid hoverlaid)
    (beside_register hregistry hfollowRefs) h ⟨o.table, []⟩ ⟨o'.table, []⟩ htables
  unfold compile
  dsimp only
  rw [← hid]
  generalize (Compile.definitions _ _ doc.defs).runOn _ = result at hparallel
  generalize (Compile.definitions _ _ doc'.defs).runOn _ = result' at hparallel
  cases hparallel with
  | ok hdefs htables => exact .ok rfl hdefs htables
  | error e _ _ => exact .error e

/-! ## Compilations that come to the same -/

/-- A definition has nothing but its facets. -/
theorem Compiled.facets_injective : Function.Injective Compiled.facets := by
  intro c c' h
  rcases c with v | ⟨key, record⟩ | ⟨parameters, ⟨_, _⟩, errors⟩ |
    ⟨parameters, ⟨_, _⟩, ⟨_, _⟩, errors⟩ | ⟨parameters, message, errors⟩ <;>
  rcases c' with v' | ⟨key', record'⟩ | ⟨parameters', ⟨_, _⟩, errors'⟩ |
    ⟨parameters', ⟨_, _⟩, ⟨_, _⟩, errors'⟩ | ⟨parameters', message', errors'⟩ <;>
  simp_all [Compiled.facets]

theorem Compiled.Related.eq {c c' : Compiled} (h : c.Related Eq c') : c' = c :=
  Compiled.facets_injective h.facets.eq

namespace Compile

structure Same (table : OptionTable) (t t' : Tables) : Prop where
  eq : t' = t
  keeps : Keeps table t

theorem Mirrors.parallel {table : OptionTable} {α : Type} {c : Compile α} (h : Mirrors Eq c c) :
    Parallel (Same table) Eq c c := by
  intro t t' ht
  obtain ⟨rfl, hkeeps⟩ := ht
  generalize hrun : c.runOn t' = result
  obtain ⟨x, s⟩ := result
  have hs : Same table s s := ⟨rfl, hkeeps.run h hrun⟩
  cases x with
  | error e => exact .error e s s
  | ok x => exact .ok rfl hs

/-- On the same tables the same validators come of the same. -/
theorem respects_eq (table : OptionTable) : Respects table (Same table) Eq where
  override? a ht := by
    rw [ht.eq]
    exact ⟨(ht.keeps a).1, (ht.keeps a).1⟩
  additional a ht := by rw [ht.eq]
  requireNode a := (Mirrors.requireNode rfl).parallel
  recordMetadata a entries := (Mirrors.recordMetadata rfl entries).parallel
  extend description default a hv := by
    rw [hv]
    exact (Mirrors.extend _ description default rfl).parallel
  refl _ := rfl
  annotate description default hv := by rw [hv]
  asNullable hv := by rw [hv]
  object added hfields := by rw [hfields.eq]
  array least greatest hv := by rw [hv]
  taggedUnion field closed hbranches := by rw [hbranches.eq]

end Compile

theorem CompiledLexicon.Related.eq {table : OptionTable}
    {result result' : Except CompileError CompiledLexicon}
    (h : Related (Compile.Same table) Eq result result') : result' = result := by
  cases h with
  | error e => rfl
  | @ok c c' hid hdefs htables =>
    obtain ⟨id, defs, metadata, table⟩ := c
    obtain ⟨id', defs', metadata', table'⟩ := c'
    have heq : Entries.Related Eq defs defs' := hdefs.imp fun _ _ he => ⟨he.1, he.2.eq.symm⟩
    obtain ⟨⟩ := htables.eq
    rw [show id = id' from hid, heq.eq]

end Lexicon
