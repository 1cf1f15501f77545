import Lexicon.Proofs.Compile.Depth
import Lexicon.Proofs.Registry

/-!
# References are transparent

A reference compiles to what its target compiles to in the scope of the target: the annotations of
the target commute with the extension of the node that holds the reference. A description of the
reference is used where the target gives none. The override table stands above both, so a node that
it replaces keeps the replacement as it is.
-/

namespace Lexicon

namespace Validator

variable {v : Validator}

def orDescribe (v : Validator) (description : Option String) : Validator :=
  { v with description := v.description.or description }

theorem orDescribe_none : v.orDescribe none = v := by
  obtain ⟨kind, optional, nullable, default, description⟩ := v
  simp [orDescribe]

theorem orDescribe_orDescribe (first second : Option String) :
    (v.orDescribe first).orDescribe second = v.orDescribe (first.or second) := by
  simp [orDescribe, Option.or_assoc]

theorem annotate_or (first second : Option String) (default : Option Json) :
    v.annotate (first.or second) default = (v.annotate first default).orDescribe second := by
  simp [annotate, orDescribe, Option.or_assoc]

end Validator

namespace Compile

variable {apply : Apply} {ctx : Context} {a : Address} {v : Validator} {reference : String}
  {target : Definition}

/-- The first compilation of a node gives what the second one gives, with a description where the
validator has none. A node that is replaced stays as the override table has it. -/
def DescribedAs (description : Option String) (a : Address) (c d : Compile (Option Validator)) :
    Prop :=
  ∀ t : Tables,
    ((∀ v, t.options.override? a ≠ some (.replace v)) →
      c.runOn t = ((Option.map (·.orDescribe description)) <$> d).runOn t) ∧
    ∀ v, t.options.override? a = some (.replace v) →
      c.runOn t = (.ok (some v), t) ∧ d.runOn t = (.ok (some v), t)

theorem extend_orDescribe (description : Option String) :
    extend (v.orDescribe description) none none a =
      (·.orDescribe description) <$> extend v none none a := by
  simp only [extend_eq, map_bind]
  refine bind_congr fun o => ?_
  have hannotate : (v.orDescribe description).annotate none none =
      (v.annotate none none).orDescribe description := by
    simp [Validator.annotate, Validator.orDescribe]
  rw [hannotate]
  cases o.metadata? <;> rfl

/-- Extending annotates first. -/
theorem extend_eq_extend_annotate (description : Option String) (default : Option Json) :
    extend v description default a = extend (v.annotate description default) none none a := by
  have hannotate : (v.annotate description default).annotate none none =
      v.annotate description default := by
    simp [Validator.annotate]
  rw [extend_eq, extend_eq, hannotate]

/-- Annotating twice and extending once is extending with the first annotation. -/
theorem extend_annotate (first second : Option String) (default : Option Json) :
    extend (v.annotate first default) second none a =
      (·.orDescribe second) <$> extend v first default a := by
  have hsecond : (v.annotate first default).annotate second none =
      (v.annotate first default).orDescribe second := rfl
  rw [extend_eq_extend_annotate, hsecond, extend_orDescribe, ← extend_eq_extend_annotate]

theorem runOn_override_bind {α : Type} (f : Option Override → Compile α) (t : Tables) :
    (override? a >>= f).runOn t = (f (t.options.override? a)).runOn t :=
  runOn_bind_of_ok (runOn_override? a)

theorem nodeWith_replaced {d : Definition} {t : Tables}
    (hreplace : t.options.override? a = some (.replace v)) :
    (nodeWith apply ctx d a).runOn t = (.ok (some v), t) := by
  unfold nodeWith
  rw [runOn_override_bind, hreplace]
  rfl

theorem nodeWith_describedAs {d e : Definition} {ctx' : Context} {description : Option String}
    (h : extendedWith apply ctx d a = (·.orDescribe description) <$> extendedWith apply ctx' e a) :
    DescribedAs description a (nodeWith apply ctx d a) (nodeWith apply ctx' e a) := by
  intro t
  refine ⟨fun hreplace => ?_, fun v hv => ⟨nodeWith_replaced hv, nodeWith_replaced hv⟩⟩
  unfold nodeWith
  rw [map_bind, runOn_override_bind, runOn_override_bind, h]
  cases hoverride : t.options.override? a with
  | some o =>
    rcases o with _ | v
    · rfl
    · exact absurd hoverride (hreplace v)
  | none => simp only [map_eq_pure_bind, bind_assoc, pure_bind, Option.map_some]

section
variable (href : ctx.registry.require "ref" = .ok (.node .ref)) (hfollow : ctx.followRefs = true)
  (hlookup : ctx.lookup reference = .ok target) (hscope : ctx.qualify reference ∉ ctx.scope)
  (happly : ∀ ctx s a, apply (.node .ref) ctx (.ref s) a = refWith apply ctx s a)
include href hfollow hlookup hscope happly

/-- A reference is compiled as what it leads to. -/
theorem dispatchWith_ref (description : Option String) :
    dispatchWith apply ctx (.ref ⟨description, reference⟩) a =
      targetWith apply (ctx.enter (ctx.qualify reference)) target a := by
  have hresolve : ctx.registry.resolve (Definition.ref ⟨description, reference⟩).tag =
      .ok (.node .ref) := Registry.resolve_of_require href
  have hcontains : ctx.scope.contains (ctx.qualify reference) = false := by simpa using hscope
  have hentered : ctx.follow? (ctx.qualify reference) =
      .ok (some (ctx.enter (ctx.qualify reference))) := by
    unfold Context.follow?
    rw [hcontains]
    rfl
  unfold dispatchWith
  rw [hresolve]
  change apply (.node .ref) ctx _ a = _
  rw [happly]
  unfold refWith
  rw [if_pos hfollow, hlookup]
  change (liftM (ctx.follow? (ctx.qualify reference)) >>= _ : Compile Validator) = _
  rw [hentered]
  rfl

/-- A definition that is no envelope is annotated by itself and extended by the reference. -/
theorem extendedWith_ref (hprimary : target.isPrimary = false) (description : Option String) :
    extendedWith apply ctx (.ref ⟨description, reference⟩) a =
      (·.orDescribe description) <$>
        extendedWith apply (ctx.enter (ctx.qualify reference)) target a := by
  have htarget : targetWith apply (ctx.enter (ctx.qualify reference)) target a =
      (·.annotate target.description target.default?) <$>
        dispatchWith apply (ctx.enter (ctx.qualify reference)) target a := by
    cases target with
    | record s => exact nomatch hprimary
    | _ => rfl
  unfold extendedWith
  rw [dispatchWith_ref href hfollow hlookup hscope happly, htarget, map_bind, bind_map_left]
  refine bind_congr fun v => ?_
  exact extend_annotate target.description description target.default?

/-- A record stands for its object, whose description may be missing. -/
theorem extendedWith_ref_record {recorded key : Option String} {s : ObjectShape Definition}
    (hobject : ∃ c, ctx.registry.require "object" = .ok c)
    (htarget : target = .record ⟨recorded, key, some s⟩) (description : Option String) :
    extendedWith apply ctx (.ref ⟨description, reference⟩) a =
      (·.orDescribe (recorded.or description)) <$>
        extendedWith apply (ctx.enter (ctx.qualify reference)) (.object s) a := by
  obtain ⟨c, hc⟩ := hobject
  have hrequire : (ctx.enter (ctx.qualify reference)).registry.require "object" = .ok c := hc
  have hresolve : (ctx.enter (ctx.qualify reference)).registry.resolve
      (Definition.object s).tag = .ok c := Registry.resolve_of_require hc
  unfold extendedWith
  rw [dispatchWith_ref href hfollow hlookup hscope happly, htarget]
  unfold targetWith dispatchWith
  rw [hrequire, hresolve]
  change ((apply c _ _ _ >>= fun v => pure _) >>= _ : Compile Validator) = _ <$> (apply c _ _ _ >>= _)
  rw [bind_assoc, map_bind]
  refine bind_congr fun v => ?_
  rw [pure_bind, Validator.annotate_or, extend_eq_extend_annotate]
  change extend (((v.annotate s.description none).orDescribe recorded).orDescribe description)
    none none a = _
  rw [Validator.orDescribe_orDescribe, extend_orDescribe, ← extend_eq_extend_annotate]
  rfl

end
end Compile

namespace Context

open Compile (unbounded DescribedAs)

/-- A reference compiles to its target, and its description is used where the target gives none. A
record that is referenced compiles to its object. -/
theorem compileNode_ref {ctx : Context} {overrides : Registry} {a : Address} {reference : String}
    {target : Definition} (hregistry : ctx.registry = Registry.builtin.overlaid overrides)
    (href : ctx.registry.compilers.find? "ref" = some (.node .ref))
    (hfollow : ctx.followRefs = true) (hlookup : ctx.lookup reference = .ok target)
    (hscope : ctx.qualify reference ∉ ctx.scope) :
    (target.isPrimary = false →
      ctx.compileNode (.ref { target := reference }) a =
        (ctx.enter (ctx.qualify reference)).compileNode target a ∧
      ∀ description, DescribedAs (some description) a
        (ctx.compileNode (.ref ⟨some description, reference⟩) a)
        ((ctx.enter (ctx.qualify reference)).compileNode target a)) ∧
    ∀ recorded key s, target = .record ⟨recorded, key, some s⟩ → ∀ description,
      DescribedAs (recorded.or description) a
        (ctx.compileNode (.ref ⟨description, reference⟩) a)
        ((ctx.enter (ctx.qualify reference)).compileNode (.object s) a) := by
  have hrequire := Registry.require_of_find? href
  have happly : ∀ ctx s a, unbounded (.node .ref) ctx (.ref s) a = Compile.refWith unbounded ctx s a :=
    fun ctx s a => Compile.unbounded_eq (.node .ref) ctx (.ref s) a
  have hobject : ∃ c, ctx.registry.require "object" = .ok c := by
    rw [hregistry]
    exact Registry.require_overlaid (c := .node .object) rfl
  simp only [compileNode_eq]
  constructor
  · intro hprimary
    have hextended := Compile.extendedWith_ref (a := a) hrequire hfollow hlookup hscope happly
      hprimary
    refine ⟨?_, fun description => Compile.nodeWith_describedAs (hextended (some description))⟩
    have hid : (fun v : Validator => v.orDescribe none) = id :=
      funext fun _ => Validator.orDescribe_none
    have hnone := hextended none
    rw [hid, id_map] at hnone
    rw [Compile.nodeWith, hnone, Compile.nodeWith]
  · intro recorded key s hrecord description
    exact Compile.nodeWith_describedAs (Compile.extendedWith_ref_record hrequire hfollow hlookup
      hscope happly hobject hrecord description)

def sample : Context where
  lexicons := [("app.note", {
    id := some "app.note"
    defs := [
      ("text", .string { default := some (.string "empty"), maxLength := some 9 }),
      ("note", .record {
        description := some "a note"
        record := some { properties := [("body", .ref { target := "#text" })] } })] })]
  scope := [⟨"app.note", "main"⟩]

theorem compileNode_ref_sample :
    (sample.compileNode (.ref { target := "#text" }) "main" =
      (sample.enter ⟨"app.note", "text"⟩).compileNode
        (.string { default := some (.string "empty"), maxLength := some 9 }) "main") ∧
    DescribedAs (some "a note") "main" (sample.compileNode (.ref ⟨some "see", "#note"⟩) "main")
      ((sample.enter ⟨"app.note", "note"⟩).compileNode
        (.object { properties := [("body", .ref { target := "#text" })] }) "main") := by
  have htext := @compileNode_ref sample {} "main" "#text" _ rfl rfl rfl rfl (by decide)
  have hnote := @compileNode_ref sample {} "main" "#note" _ rfl rfl rfl rfl (by decide)
  exact ⟨(htext.1 rfl).1, hnote.2 _ _ _ rfl (some "see")⟩

/-- Where the node is replaced, the description of the reference is not attached. -/
theorem description_of_replaced_ref :
    ¬ ∀ (ctx : Context) (overrides : Registry) (a : Address) (reference description : String)
        (target : Definition) (v : Validator) (t t' : Tables),
      ctx.registry = Registry.builtin.overlaid overrides →
      ctx.registry.compilers.find? "ref" = some (.node .ref) → ctx.followRefs = true →
      ctx.lookup reference = .ok target → ctx.qualify reference ∉ ctx.scope →
      target.isPrimary = false →
      ((ctx.enter (ctx.qualify reference)).compileNode target a).runOn t = (.ok (some v), t') →
      ((ctx.compileNode (.ref ⟨some description, reference⟩) a).runOn t).1 =
        .ok (some (v.orDescribe (some description))) := by
  intro h
  let t : Tables := { options := .ofList [("p", { override? := some (.replace .boolean) })] }
  have ht : t.options.override? "p" = some (.replace .boolean) := rfl
  have hclaim := h sample {} "p" "#text" "see" _ .boolean t t rfl rfl rfl rfl (by decide) rfl
    (by rw [compileNode_eq]; exact Compile.nodeWith_replaced ht)
  rw [compileNode_eq, Compile.nodeWith_replaced ht] at hclaim
  have hdescription := congrArg Validator.description (Option.some.inj (Except.ok.inj hclaim))
  exact nomatch hdescription

end Context
end Lexicon
