import Lexicon.Compile.Document
import Lexicon.Proofs.Compile.Builtin
import Lexicon.Proofs.Compile.Document

/-!
# The cycle policies differ on cycles only

A compilation and the same one with cycles permitted are followed step by step. They do the same
until the first one meets a cycle, and its error ends everything that it is part of (`Permits`). The
second one never ends with a cycle.
-/

namespace Lexicon

def Context.permitting (ctx : Context) : Context := { ctx with cyclePolicy := .permissive }

theorem Context.register_permitting (ctx : Context) (doc : Document) :
    ctx.permitting.register doc = (ctx.register doc).permitting := by
  have hlexicons : ctx.permitting.lexicons = ctx.lexicons := rfl
  unfold register
  rw [hlexicons]
  split
  · split <;> rfl
  · rfl

namespace Compile

variable {α β : Type} {c c' : Compile α} {f f' : α → Compile β} {a : Address} {d : Definition}

def NoCycle (c : Compile α) : Prop := ∀ t path, (c.runOn t).1 ≠ .error (.cycle path)

theorem noCycle_pure (x : α) : NoCycle (pure x : Compile α) := nofun

theorem noCycle_lift {x : Except CompileError α} (h : ∀ path, x ≠ .error (.cycle path)) :
    NoCycle (liftM x : Compile α) := by
  intro t path
  cases x with
  | error e => exact h path
  | ok y => exact nofun

theorem noCycle_bind (hc : NoCycle c) (hf : ∀ x, NoCycle (f x)) : NoCycle (c >>= f) := by
  intro t path
  have hfirst := hc t path
  rw [runOn_bind]
  cases hrun : c.runOn t with
  | mk result s =>
    rw [hrun] at hfirst
    cases result with
    | error e =>
      intro h
      exact hfirst (by cases h; rfl)
    | ok x => exact hf x s path

theorem Steady.noCycle (h : Steady c) : NoCycle c := by
  induction h with
  | bind _ _ hc hf => exact noCycle_bind hc hf
  | _ => exact nofun

/-- The second compilation does not end with a cycle. The first one does, or it is the same. -/
def Permits (c c' : Compile α) : Prop :=
  NoCycle c' ∧ ∀ t, (∃ path, (c.runOn t).1 = .error (.cycle path)) ∨ c.runOn t = c'.runOn t

theorem permits_self (h : NoCycle c) : Permits c c := ⟨h, fun _ => .inr rfl⟩

theorem Steady.permits (h : Steady c) : Permits c c := permits_self h.noCycle

theorem permits_pure (x : α) : Permits (pure x : Compile α) (pure x) := (Steady.pure x).permits

theorem permits_bind (hc : Permits c c') (hf : ∀ x, Permits (f x) (f' x)) :
    Permits (c >>= f) (c' >>= f') := by
  refine ⟨noCycle_bind hc.1 fun x => (hf x).1, fun t => ?_⟩
  rw [runOn_bind, runOn_bind]
  rcases hc.2 t with ⟨path, hcycle⟩ | heq
  · left
    cases hrun : c.runOn t with
    | mk result s =>
      rw [hrun] at hcycle
      obtain rfl : result = .error (.cycle path) := hcycle
      exact ⟨path, rfl⟩
  · rw [← heq]
    cases hrun : c.runOn t with
    | mk result s =>
      cases result with
      | error e => exact .inr rfl
      | ok x => exact (hf x).2 s

theorem permits_map (g : α → β) (hc : Permits c c') :
    Permits (c >>= fun x => pure (g x)) (c' >>= fun x => pure (g x)) :=
  permits_bind hc fun x => permits_pure (g x)

/-- A step that both take comes before. -/
theorem permits_after (hc : NoCycle c) (hf : ∀ x, Permits (f x) (f' x)) :
    Permits (c >>= f) (c >>= f') :=
  permits_bind (permits_self hc) hf

theorem permits_require_bind {r : Registry} {tag : String} {f f' : TypeCompiler → Compile β}
    (hf : ∀ x, Permits (f x) (f' x)) :
    Permits (liftM (r.require tag) >>= f) (liftM (r.require tag) >>= f') := by
  refine permits_after (noCycle_lift fun path => ?_) hf
  unfold Registry.require
  split <;> exact nofun

theorem permits_resolve_bind {r : Registry} {tag : String} {f f' : TypeCompiler → Compile β}
    (hf : ∀ x, Permits (f x) (f' x)) :
    Permits (liftM (r.resolve tag) >>= f) (liftM (r.resolve tag) >>= f') := by
  refine permits_after (noCycle_lift fun path => ?_) hf
  unfold Registry.resolve
  split <;> exact nofun

theorem permits_lookup_bind {ctx : Context} {reference : String}
    {f f' : Definition → Compile β} (hf : ∀ x, Permits (f x) (f' x)) :
    Permits (liftM (ctx.lookup reference) >>= f) (liftM (ctx.lookup reference) >>= f') := by
  refine permits_after (noCycle_lift fun path => ?_) hf
  simp only [Context.lookup]
  split
  · exact nofun
  · split <;> exact nofun

theorem permits_view_bind {σ : Type} {held : Option σ} {read : Entries Json → Except Mismatch σ}
    {f f' : σ → Compile β} (hf : ∀ x, Permits (f x) (f' x)) :
    Permits (view held read d a >>= f) (view held read d a >>= f') := by
  refine permits_after ?_ hf
  cases held with
  | some s => exact noCycle_pure s
  | none =>
    refine noCycle_lift fun path h => ?_
    cases hread : d.reread read with
    | error e =>
      rw [hread] at h
      exact nomatch h
    | ok s =>
      rw [hread] at h
      exact nomatch h

/-- A cycle ends the first compilation and is let through by the second one. -/
theorem permits_follow_bind (ctx : Context) {target : Reference} {k : Option Context → Compile β}
    {k' : Option Context → Compile β} (hnone : Permits (k none) (k' none))
    (hsome : Permits (k (some (ctx.enter target))) (k' (some (ctx.permitting.enter target)))) :
    Permits (liftM (ctx.follow? target) >>= k) (liftM (ctx.permitting.follow? target) >>= k') := by
  have hscope : ctx.permitting.scope = ctx.scope := rfl
  have hpolicy : ctx.permitting.cyclePolicy = .permissive := rfl
  unfold Context.follow?
  rw [hscope, hpolicy]
  cases ctx.scope.contains target with
  | false => exact hsome
  | true =>
    cases ctx.cyclePolicy with
    | permissive => exact hnone
    | fail => exact ⟨hnone.1, fun _ => .inl ⟨_, rfl⟩⟩

def PermitsCycles (apply : Apply) : Prop :=
  ∀ compiler ctx d a, Permits (apply compiler ctx d a) (apply compiler ctx.permitting d a)

section
variable {apply : Apply} (ctx : Context) (happly : PermitsCycles apply)
include happly

theorem permits_dispatchWith :
    Permits (dispatchWith apply ctx d a) (dispatchWith apply ctx.permitting d a) :=
  permits_resolve_bind fun compiler => happly compiler ctx d a

theorem permits_extendedWith :
    Permits (extendedWith apply ctx d a) (extendedWith apply ctx.permitting d a) :=
  permits_bind (permits_dispatchWith ctx happly) fun v => (Steady.extend v _ _ a).permits

theorem permits_nodeWith : Permits (nodeWith apply ctx d a) (nodeWith apply ctx.permitting d a) := by
  refine permits_after (Steady.override? a).noCycle fun o => ?_
  rcases o with _ | _ | v
  · exact permits_map some (permits_extendedWith ctx happly)
  · exact permits_pure none
  · exact permits_pure (some v)

theorem permits_fieldsWith (s : ObjectShape Definition) (properties : List (String × Definition)) :
    Permits (fieldsWith apply ctx s a properties) (fieldsWith apply ctx.permitting s a properties) := by
  induction properties with
  | nil => exact permits_pure []
  | cons e rest ih =>
    obtain ⟨key, d⟩ := e
    rw [fieldsWith_cons, fieldsWith_cons]
    refine permits_after (Steady.noCycle ?_) fun _ =>
      permits_bind (permits_nodeWith ctx happly) fun v => ?_
    · split
      · exact .requireNode _
      · exact .pure ()
    · cases v with
      | none => exact ih
      | some v => exact permits_map _ ih

theorem permits_objectWith (s : ObjectShape Definition) :
    Permits (objectWith apply ctx s a) (objectWith apply ctx.permitting s a) := by
  rw [objectWith_eq, objectWith_eq]
  exact permits_bind (permits_fieldsWith ctx happly s s.properties) fun _ =>
    (Steady.bind (.optionsAt a) fun _ => .pure _).permits

theorem permits_arrayWith (s : ArrayShape Definition) :
    Permits (arrayWith apply ctx s a) (arrayWith apply ctx.permitting s a) :=
  permits_map _ (permits_nodeWith ctx happly)

theorem permits_branchWith (compiler : TypeCompiler) (reference : String) :
    Permits (branchWith apply ctx compiler reference a)
      (branchWith apply ctx.permitting compiler reference a) := by
  refine permits_after (Steady.override? a).noCycle fun o => ?_
  rcases o with _ | _ | v
  · exact permits_bind (happly compiler ctx _ a) fun v =>
      (Steady.bind (.extend v none none a) fun _ => .pure _).permits
  · exact permits_pure none
  · exact permits_pure (some v)

theorem permits_branchesWith (compiler : TypeCompiler) (index : Nat) (refs : List String) :
    Permits (branchesWith apply ctx compiler a index refs)
      (branchesWith apply ctx.permitting compiler a index refs) := by
  induction refs generalizing index with
  | nil => exact permits_pure []
  | cons reference rest ih =>
    refine permits_bind (permits_branchWith ctx happly compiler reference) fun v => ?_
    cases v with
    | none => exact ih (index + 1)
    | some v => exact permits_map _ (ih (index + 1))

theorem permits_unionWith (s : UnionShape) :
    Permits (unionWith apply ctx s a) (unionWith apply ctx.permitting s a) :=
  permits_require_bind fun compiler =>
    permits_map _ (permits_branchesWith ctx happly compiler 0 s.refs)

theorem permits_targetWith (target : Definition) :
    Permits (targetWith apply ctx target a) (targetWith apply ctx.permitting target a) := by
  have hdispatch := permits_dispatchWith (d := target) (a := a) ctx happly
  cases target with
  | record s =>
    obtain ⟨description, key, body⟩ := s
    cases body with
    | none => exact permits_pure _
    | some s => exact permits_require_bind fun compiler => permits_map _ (happly compiler ctx _ a)
  | _ => exact permits_map _ hdispatch

theorem permits_refWith (s : RefShape) :
    Permits (refWith apply ctx s a) (refWith apply ctx.permitting s a) := by
  have hfollowRefs : ctx.permitting.followRefs = ctx.followRefs := rfl
  have hlookup : ctx.permitting.lookup s.target = ctx.lookup s.target := rfl
  unfold refWith
  rw [hfollowRefs, hlookup]
  split
  · refine permits_lookup_bind fun target => permits_follow_bind ctx (permits_pure Validator.any) ?_
    exact permits_targetWith (ctx.enter (ctx.qualify s.target)) happly target
  · exact permits_pure _

theorem permits_typedWith (type : NodeType) :
    Permits (typedWith apply ctx type d a) (typedWith apply ctx.permitting type d a) := by
  cases type with
  | string => exact permits_view_bind fun s => (Steady.string ctx s a).permits
  | blob => exact permits_view_bind fun s => (Steady.blob s a).permits
  | array => exact permits_view_bind fun s => permits_arrayWith ctx happly s
  | object => exact permits_view_bind fun s => permits_objectWith ctx happly s
  | union => exact permits_view_bind fun s => permits_unionWith ctx happly s
  | ref => exact permits_view_bind fun s => permits_refWith ctx happly s
  | _ => exact permits_view_bind fun s => permits_pure _

end

theorem permits_compileAt (n : Nat) : PermitsCycles (compileAt n) := by
  induction n with
  | zero => exact fun _ _ _ _ => permits_self nofun
  | succ n ih =>
    intro compiler ctx d a
    cases compiler with
    | anything => exact permits_pure _
    | constant v => exact permits_pure v
    | unsupported tag => exact permits_self nofun
    | node type => exact permits_typedWith ctx ih type

section
variable {apply : Apply} (ctx : Context) (happly : PermitsCycles apply)
include happly

theorem permits_objectFacetWith (shape : Option (ObjectShape Definition)) (a : Address) :
    Permits (objectFacetWith apply ctx shape a) (objectFacetWith apply ctx.permitting shape a) := by
  cases shape with
  | none => exact permits_pure _
  | some s =>
    refine permits_after (Steady.override? a).noCycle fun o => ?_
    rcases o with _ | _ | v
    · refine permits_after nofun fun _ => permits_require_bind fun compiler => ?_
      exact permits_bind (happly compiler ctx _ a) fun v => (Steady.extend v _ _ a).permits
    · exact permits_pure _
    · exact permits_pure v

theorem permits_schemaFacetWith (schema : Option Definition) (a : Address) :
    Permits (schemaFacetWith apply ctx schema a) (schemaFacetWith apply ctx.permitting schema a) := by
  cases schema with
  | none => exact permits_pure _
  | some d =>
    exact permits_after (Steady.requireNode a).noCycle fun _ =>
      permits_map _ (permits_nodeWith ctx happly)

theorem permits_bodyFacetsWith (body : Option (Body Definition)) (a : Address) :
    Permits (bodyFacetsWith apply ctx body a) (bodyFacetsWith apply ctx.permitting body a) := by
  cases body with
  | none => exact permits_pure _
  | some b => exact permits_map _ (permits_schemaFacetWith ctx happly b.schema _)

theorem permits_envelopeWith :
    Permits (envelopeWith apply ctx d a) (envelopeWith apply ctx.permitting d a) := by
  have hobject := permits_objectFacetWith ctx happly
  have hbody := permits_bodyFacetsWith ctx happly
  cases d with
  | record s => exact permits_map _ (hobject _ _)
  | query s => exact permits_bind (hobject _ _) fun _ => permits_map _ (hbody _ _)
  | procedure s =>
    exact permits_bind (hobject _ _) fun _ => permits_bind (hbody _ _) fun _ =>
      permits_map _ (hbody _ _)
  | subscription s =>
    exact permits_bind (hobject _ _) fun _ => permits_map _ (permits_schemaFacetWith ctx happly _ _)
  | _ => exact permits_pure none

theorem permits_definitionWith :
    Permits (definitionWith apply ctx d a) (definitionWith apply ctx.permitting d a) := by
  refine permits_bind (permits_envelopeWith ctx happly) fun c => ?_
  cases c with
  | some c => exact permits_pure c
  | none => exact permits_map _ (permits_extendedWith ctx happly)

end

theorem permits_definitions (ctx : Context) (nsid : String) (defs : List (String × Definition)) :
    Permits (definitions ctx nsid defs) (definitions ctx.permitting nsid defs) := by
  induction defs with
  | nil => exact permits_pure []
  | cons e rest ih =>
    obtain ⟨name, d⟩ := e
    refine permits_after (Steady.override? name).noCycle fun o => ?_
    rcases o with _ | _ | v
    · refine permits_bind ?_ fun c => permits_map _ ih
      exact permits_definitionWith (ctx.enter ⟨nsid, name⟩) (permits_compileAt _)
    · exact ih
    · exact permits_map _ ih

end Compile

namespace Document

/-- Where cycles are permitted, no cycle is reported. Where they are an error, a cycle is reported
or the result is the same. -/
theorem compile_policies (doc : Document) (o : CompileOptions) :
    (∀ path, doc.compile { o with cyclePolicy := .permissive } ≠ .error (.cycle path)) ∧
      ((∃ path, doc.compile { o with cyclePolicy := .fail } = .error (.cycle path)) ∨
        doc.compile { o with cyclePolicy := .fail } =
          doc.compile { o with cyclePolicy := .permissive }) := by
  have hctx : (Context.ofOptions { o with cyclePolicy := .permissive }).register doc =
      ((Context.ofOptions { o with cyclePolicy := .fail }).register doc).permitting :=
    (Context.ofOptions { o with cyclePolicy := .fail }).register_permitting doc
  obtain ⟨hnever, hsame⟩ := Compile.permits_definitions
    ((Context.ofOptions { o with cyclePolicy := .fail }).register doc) (doc.id.getD "") doc.defs
  rw [← hctx] at hnever hsame
  refine ⟨fun path hpath => hnever _ path (compile_eq_error.mp hpath), ?_⟩
  rcases hsame ⟨o.table, []⟩ with ⟨path, hcycle⟩ | heq
  · exact .inl ⟨path, compile_eq_error.mpr hcycle⟩
  · right
    unfold compile
    dsimp only
    rw [heq]

end Document
end Lexicon
