import Lexicon.Proofs.Compile.Views
import Lexicon.Proofs.Definition.Read
import Lexicon.Validator.Parse

/-!
# Tags of scalars beside the built-in ones

A registry may have the compiler of a scalar, such as a text, serve a tag that is not modelled. A
body with this tag is kept as it was written, is read again for the compiler, and has its
description and its default taken from the fields. Read as a scalar under its own tag, the same body
gives the same validator, flags and metadata (`Definition.compileNode_custom`), with one exception:
a default of null is none for a scalar but a default for the node that is not modelled. A missing
value, which is accepted otherwise, then stands for null and is refused
(`Definition.custom_null_default`).
-/

namespace Lexicon

namespace Json

def present? (x : Json) : Option Json := if x.isNull then none else some x

end Json

namespace Definition

open Compile (Steady bodyWith)

/-! ## Scalars -/

theorem ofFields_of_not_mem {inner : ReadInner} {tag : String} (h : tag ∉ modelledTags)
    (fields : Entries Json) : ofFields inner tag fields = .ok (unmodelled tag fields) := by
  unfold ofFields
  split
  case h_19 => rfl
  all_goals exact absurd (by decide) h

structure Scalar (name : String) (type : NodeType) {σ : Type} (reader : FieldReader σ)
    (make : σ → Definition) : Prop where
  reads : ∀ inner fields, ofFields inner name fields = make <$> reader.ofFields fields
  views : ∀ tag body s, reader.ofFields body = .ok s →
    (unmodelled tag body).viewedAs type = .ok (make s)
  itself : ∀ s, (make s).tag = name ∧ (make s).viewedAs type = .ok (make s)
  steady : ∀ apply ctx s a, Steady (bodyWith apply ctx (make s) a)
  blank : (make reader.blank).description = none ∧ (make reader.blank).default? = none
  untyped : ∀ s x, reader.read s "type" x = .ok s
  annotations : ∀ s key x t, reader.read s key x = .ok t →
    ((make t).description = if key = "description" then x.string? else (make s).description) ∧
      (make t).default? = if key = "default" then x.present? else (make s).default?

theorem optional_string_eq {x : Json} {o : Option String} (h : Read.optional Read.string x = .ok o) :
    o = x.string? := by
  cases x with
  | null | string => exact (Except.ok.inj h).symm
  | _ => exact nomatch h

theorem optional_any_eq {x : Json} {o : Option Json} (h : Read.optional Read.any x = .ok o) :
    o = x.present? := by
  cases x <;> exact (Except.ok.inj h).symm

theorem scalar_string : Scalar "string" .string StringShape.reader string where
  reads _ _ := rfl
  views tag body s h := by
    change (Except.mapError _ (StringShape.reader.ofFields body)).map string = _
    rw [h]
    rfl
  itself _ := ⟨rfl, rfl⟩
  steady _ ctx s a := Steady.string ctx s a
  blank := ⟨rfl, rfl⟩
  untyped _ _ := rfl
  annotations s key x t h := by
    simp only [StringShape.reader] at h
    split at h
    case h_1 =>
      obtain ⟨o, ho, rfl⟩ := bind_pure_eq_ok.mp h
      exact ⟨optional_string_eq ho, rfl⟩
    case h_2 =>
      obtain ⟨o, ho, rfl⟩ := bind_pure_eq_ok.mp h
      exact ⟨rfl, optional_any_eq ho⟩
    case h_9 hdescription hdefault _ _ _ _ _ _ =>
      obtain rfl := Except.ok.inj h
      exact ⟨(if_neg hdescription).symm, (if_neg hdefault).symm⟩
    all_goals
      obtain ⟨o, _, rfl⟩ := bind_pure_eq_ok.mp h
      exact ⟨rfl, rfl⟩

theorem scalar_integer : Scalar "integer" .integer IntegerShape.reader integer where
  reads _ _ := rfl
  views tag body s h := by
    change (Except.mapError _ (IntegerShape.reader.ofFields body)).map integer = _
    rw [h]
    rfl
  itself _ := ⟨rfl, rfl⟩
  steady _ _ _ _ := Steady.pure _
  blank := ⟨rfl, rfl⟩
  untyped _ _ := rfl
  annotations s key x t h := by
    simp only [IntegerShape.reader] at h
    split at h
    case h_1 =>
      obtain ⟨o, ho, rfl⟩ := bind_pure_eq_ok.mp h
      exact ⟨optional_string_eq ho, rfl⟩
    case h_2 =>
      obtain ⟨o, ho, rfl⟩ := bind_pure_eq_ok.mp h
      exact ⟨rfl, optional_any_eq ho⟩
    case h_7 hdescription hdefault _ _ _ _ =>
      obtain rfl := Except.ok.inj h
      exact ⟨(if_neg hdescription).symm, (if_neg hdefault).symm⟩
    all_goals
      obtain ⟨o, _, rfl⟩ := bind_pure_eq_ok.mp h
      exact ⟨rfl, rfl⟩

theorem scalar_boolean : Scalar "boolean" .boolean BooleanShape.reader boolean where
  reads _ _ := rfl
  views tag body s h := by
    change (Except.mapError _ (BooleanShape.reader.ofFields body)).map boolean = _
    rw [h]
    rfl
  itself _ := ⟨rfl, rfl⟩
  steady _ _ _ _ := Steady.pure _
  blank := ⟨rfl, rfl⟩
  untyped _ _ := rfl
  annotations s key x t h := by
    simp only [BooleanShape.reader] at h
    split at h
    case h_1 =>
      obtain ⟨o, ho, rfl⟩ := bind_pure_eq_ok.mp h
      exact ⟨optional_string_eq ho, rfl⟩
    case h_2 =>
      obtain ⟨o, ho, rfl⟩ := bind_pure_eq_ok.mp h
      exact ⟨rfl, optional_any_eq ho⟩
    case h_4 hdescription hdefault _ =>
      obtain rfl := Except.ok.inj h
      exact ⟨(if_neg hdescription).symm, (if_neg hdefault).symm⟩
    all_goals
      obtain ⟨o, _, rfl⟩ := bind_pure_eq_ok.mp h
      exact ⟨rfl, rfl⟩

end Definition

namespace Definition

section
variable {σ : Type} {name tag : String} {type : NodeType} {reader : FieldReader σ}
  {make : σ → Definition} {body : Entries Json} {d : Definition}

theorem tagOf_insert (body : Entries Json) (tag : String) :
    tagOf (body.insert "type" (.string tag)) = tag := by
  rw [tagOf, Entries.find?_insert, if_pos rfl]
  rfl

/-- Reading an object reads its fields by its tag. -/
theorem exists_ofFields (body : Entries Json) (tag : String) :
    ∃ inner, ofJson (.object (body.insert "type" (.string tag))) =
      (ofFields inner tag (body.insert "type" (.string tag))).mapError (.invalid tag) := by
  obtain ⟨n, hn⟩ : ∃ n, (Json.object (body.insert "type" (.string tag))).weight = n + 1 :=
    ⟨Json.weightFields _, by rw [Json.weight, Nat.add_comm]⟩
  refine ⟨ofJsonAt n, ?_⟩
  rw [ofJson, hn, ofJsonAt, ofJsonWith, tagOf_insert]

theorem ofJson_custom (htag : tag ∉ modelledTags) (body : Entries Json) :
    ofJson (.object (body.insert "type" (.string tag))) =
      .ok (unmodelled tag (body.insert "type" (.string tag))) := by
  obtain ⟨inner, hread⟩ := exists_ofFields body tag
  rw [hread, ofFields_of_not_mem htag]
  rfl

/-- A body that is read as a scalar is read so by the reader of the scalar, whatever its tag. -/
theorem Scalar.exists_shape (h : Scalar name type reader make)
    (hd : ofJson (.object (body.insert "type" (.string name))) = .ok d) (tag : String) :
    ∃ s, d = make s ∧ reader.ofFields (body.insert "type" (.string tag)) = .ok s := by
  obtain ⟨inner, hread⟩ := exists_ofFields body name
  rw [hread, mapError_eq_ok, h.reads] at hd
  obtain ⟨s, hs, rfl⟩ := map_eq_ok.mp hd
  exact ⟨s, rfl, (FieldReader.ofFields_insert h.untyped body _ _).trans hs⟩

theorem Scalar.annotations_of_ofFields (h : Scalar name type reader make) (hbody : body.Distinct)
    {x : Json} {s : σ} (hs : reader.ofFields (body.insert "type" x) = .ok s) :
    (make s).description = (body.find? "description").bind Json.string? ∧
      (make s).default? = (body.find? "default").bind Json.present? := by
  have hfields := Entries.distinct_insert hbody "type" x
  have hdescription := FieldReader.field_of_ofFields (fun s => (make s).description)
    h.blank.1 (fun s key x t hread => (h.annotations s key x t hread).1) hfields hs
  have hdefault := FieldReader.field_of_ofFields (fun s => (make s).default?)
    h.blank.2 (fun s key x t hread => (h.annotations s key x t hread).2) hfields hs
  rw [Entries.find?_insert, if_neg (by decide)] at hdescription hdefault
  exact ⟨hdescription, hdefault⟩

end

section
open Compile (unbounded bodyWith dispatchWith extendedWith)

variable {σ : Type} {name tag : String} {type : NodeType} {reader : FieldReader σ}
  {make : σ → Definition} {body : Entries Json} {s : σ} {ctx : Context}

theorem Scalar.dispatchWith_eq (h : Scalar name type reader make)
    (hs : reader.ofFields body = .ok s) (hname : ctx.registry.resolve name = .ok (.node type))
    (htag : ctx.registry.resolve tag = .ok (.node type)) (a : Address) :
    dispatchWith unbounded ctx (unmodelled tag body) a = dispatchWith unbounded ctx (make s) a ∧
      dispatchWith unbounded ctx (make s) a = bodyWith unbounded ctx (make s) a := by
  obtain ⟨hmake, hitself⟩ := h.itself s
  have hviews : ctx.Views (make s) (make s) := ⟨type, hmake ▸ hname, hitself⟩
  have hcustom : ctx.Views (unmodelled tag body) (make s) := ⟨type, htag, h.views tag body s hs⟩
  rw [Compile.dispatchWith_unbounded, Compile.dispatchWith_unbounded,
    Compile.dispatchWith_of_views hviews, Compile.dispatchWith_of_views hcustom]
  exact ⟨rfl, rfl⟩

/-- The descriptions agree, and so do the defaults if there is none of null. -/
theorem Scalar.extendedWith_eq (h : Scalar name type reader make) (hbody : body.Distinct)
    (hs : reader.ofFields (body.insert "type" (.string tag)) = .ok s)
    (hname : ctx.registry.resolve name = .ok (.node type))
    (htag : ctx.registry.resolve tag = .ok (.node type)) (a : Address) :
    (body.find? "default" ≠ some .null →
      extendedWith unbounded ctx (unmodelled tag (body.insert "type" (.string tag))) a =
        extendedWith unbounded ctx (make s) a) ∧
    (body.find? "default" = some .null →
      extendedWith unbounded ctx (unmodelled tag (body.insert "type" (.string tag))) a =
        (do return (← extendedWith unbounded ctx (make s) a).withDefault .null)) := by
  obtain ⟨hdispatch, -⟩ := h.dispatchWith_eq hs hname htag a
  obtain ⟨hdescription, hdefault⟩ := h.annotations_of_ofFields hbody hs
  have hfind : ∀ key, "type" ≠ key →
      Entries.find? (body.insert "type" (.string tag)) key = body.find? key :=
    fun key hkey => (Entries.find?_insert body "type" key _).trans (if_neg hkey)
  have hcustom :
      (unmodelled tag (body.insert "type" (.string tag))).description = (make s).description ∧
        (unmodelled tag (body.insert "type" (.string tag))).default? = body.find? "default" := by
    rw [hdescription, Definition.description, Definition.default?, hfind _ (by decide),
      hfind _ (by decide)]
    exact ⟨rfl, rfl⟩
  simp only [extendedWith, hdispatch, hcustom, hdefault]
  constructor
  · intro hne
    have hpresent : (body.find? "default").bind Json.present? = body.find? "default" := by
      cases hfound : body.find? "default" with
      | none => rfl
      | some x =>
        cases x with
        | null => exact absurd hfound hne
        | _ => rfl
    rw [hpresent]
  · intro hnull
    simp only [hnull, Compile.extend_some, bind_assoc]
    rfl

theorem Scalar.runOn_compileNode (h : Scalar name type reader make) (hbody : body.Distinct)
    (hs : reader.ofFields (body.insert "type" (.string tag)) = .ok s)
    (hname : ctx.registry.resolve name = .ok (.node type))
    (htag : ctx.registry.resolve tag = .ok (.node type)) (a : Address) (t : Tables) :
    ∃ node t', (ctx.compileNode (make s) a).runOn t = (.ok node, t') ∧
      (¬ (body.find? "default" = some .null ∧ t.options.override? a = none) →
        (ctx.compileNode (unmodelled tag (body.insert "type" (.string tag))) a).runOn t =
          (.ok node, t')) ∧
      (body.find? "default" = some .null ∧ t.options.override? a = none →
        (ctx.compileNode (unmodelled tag (body.insert "type" (.string tag))) a).runOn t =
          (.ok (node.map (·.withDefault .null)), t')) := by
  obtain ⟨-, hbuiltin⟩ := h.dispatchWith_eq hs hname htag a
  obtain ⟨hsame, hnull⟩ := h.extendedWith_eq hbody hs hname htag a
  rw [Context.compileNode_eq, Context.compileNode_eq, Compile.nodeWith, Compile.nodeWith,
    Compile.runOn_bind_of_ok (Compile.runOn_override? a),
    Compile.runOn_bind_of_ok (Compile.runOn_override? a)]
  cases hoverride : t.options.override? a with
  | some o =>
    rcases o with _ | v
    · exact ⟨none, t, rfl, fun _ => rfl, fun hnone => absurd hnone.2 (Option.some_ne_none _)⟩
    · exact ⟨some v, t, rfl, fun _ => rfl, fun hnone => absurd hnone.2 (Option.some_ne_none _)⟩
  | none =>
    have hsteady : Compile.Steady (extendedWith unbounded ctx (make s) a) :=
      .bind (hbuiltin ▸ h.steady unbounded ctx s a) fun v => .extend v _ _ a
    obtain ⟨v, t', hv⟩ := hsteady.exists_ok t
    refine ⟨some v, t', Compile.runOn_bind_of_ok hv, fun hne => ?_, fun heq => ?_⟩
    · dsimp only
      rw [hsame fun hfound => hne ⟨hfound, rfl⟩]
      exact Compile.runOn_bind_of_ok hv
    · dsimp only
      rw [hnull heq.1, bind_assoc]
      exact Compile.runOn_bind_of_ok hv

end

def scalarTypes : List (String × NodeType) :=
  [("string", .string), ("integer", .integer), ("boolean", .boolean)]

theorem exists_scalar {name : String} {type : NodeType} (h : (name, type) ∈ scalarTypes) :
    ∃ (σ : Type) (reader : FieldReader σ) (make : σ → Definition), Scalar name type reader make := by
  simp only [scalarTypes, List.mem_cons, Prod.mk.injEq, List.not_mem_nil, or_false] at h
  rcases h with ⟨rfl, rfl⟩ | ⟨rfl, rfl⟩ | ⟨rfl, rfl⟩
  · exact ⟨_, _, _, scalar_string⟩
  · exact ⟨_, _, _, scalar_integer⟩
  · exact ⟨_, _, _, scalar_boolean⟩

/-- A node whose tag is not modelled, and whose compiler is the one of a scalar, compiles as the
scalar does, but for a default of null. -/
theorem compileNode_custom {name tag : String} {type : NodeType} {body : Entries Json}
    {d : Definition} {ctx : Context} (hscalar : (name, type) ∈ scalarTypes)
    (hunmodelled : tag ∉ modelledTags) (hbody : body.Distinct)
    (hd : ofJson (.object (body.insert "type" (.string name))) = .ok d)
    (hname : ctx.registry.resolve name = .ok (.node type))
    (htag : ctx.registry.resolve tag = .ok (.node type)) (a : Address) (t : Tables) :
    ∃ e node t', ofJson (.object (body.insert "type" (.string tag))) = .ok e ∧
      (ctx.compileNode d a).runOn t = (.ok node, t') ∧
      (¬ (body.find? "default" = some .null ∧ t.options.override? a = none) →
        (ctx.compileNode e a).runOn t = (.ok node, t')) ∧
      (body.find? "default" = some .null ∧ t.options.override? a = none →
        (ctx.compileNode e a).runOn t = (.ok (node.map (·.withDefault .null)), t')) := by
  obtain ⟨σ, reader, make, h⟩ := exists_scalar hscalar
  obtain ⟨s, rfl, hs⟩ := h.exists_shape hd tag
  obtain ⟨node, t', hnode⟩ := h.runOn_compileNode hbody hs hname htag a t
  exact ⟨_, node, t', ofJson_custom hunmodelled body, hnode⟩

def noteContext : Context := { registry := Registry.builtin.register "note" (.node .string) }

theorem compileNode_custom_sample :
    ∃ e node t', ofJson (.object [("maxLength", .nat 3), ("default", .string "ab"),
        ("type", .string "note")]) = .ok e ∧
      (noteContext.compileNode (string { maxLength := some 3, default := some (.string "ab") })
        "main").runOn {} = (.ok node, t') ∧
      (noteContext.compileNode e "main").runOn {} = (.ok node, t') := by
  obtain ⟨e, node, t', he, hd, hsame, -⟩ := @compileNode_custom "string" "note" .string
    [("maxLength", .nat 3), ("default", .string "ab")] _ noteContext (by simp [scalarTypes])
    (by decide) (by decide) rfl rfl rfl "main" {}
  exact ⟨e, node, t', he, hd, hsame fun hnull => nomatch hnull.1⟩

/-- A default of null makes the difference: what is missing is refused under the tag of its own. -/
theorem custom_null_default :
    ∃ d e v w t t', ofJson (.object [("default", .null), ("type", .string "string")]) = .ok d ∧
      ofJson (.object [("default", .null), ("type", .string "note")]) = .ok e ∧
      noteContext.registry.resolve "note" = .ok (.node .string) ∧
      (noteContext.compileNode d "main").runOn {} = (.ok (some v), t) ∧
      (noteContext.compileNode e "main").runOn {} = (.ok (some w), t') ∧
      v.default = none ∧ w.default = some .null ∧
      v.parseField none = .ok none ∧ ∃ r, w.parseField none = .error r :=
  ⟨_, _, _, _, _, _, rfl, rfl, rfl, rfl, rfl, rfl, rfl, rfl, _, rfl⟩

end Definition
end Lexicon
