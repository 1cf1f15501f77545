import Lexicon.Compile.Envelope
import Lexicon.Proofs.Compile.Run
import Lexicon.Proofs.Definition.Parts
import Lexicon.Proofs.Registry

/-!
# Nodes under the built-in registry

Without overrides the compiler of a tag is the one for the constructor of the definition, so
dispatching is a case distinction on the definition (`dispatchWith_eq_bodyWith`). Definitions that
have no compiler of their own accept anything. Composite nodes ask for some compilers by name; where
these are there (`Context.Equipped`), they are the ones for the tag.
-/

namespace Lexicon

namespace Registry

theorem overlaid_empty (r : Registry) : r.overlaid {} = r := rfl

theorem mem_of_mem_tags_builtin :
    ∀ tag ∈ builtin.tags, tag = defaultTag ∨ tag ∈ Definition.modelledTags := by
  decide

theorem find?_builtin_of_not_mem {tag : String} (h : tag ∉ Definition.modelledTags)
    (hdefault : tag ≠ defaultTag) : builtin.compilers.find? tag = none := by
  rw [Entries.find?_eq_none_iff]
  intro hmem
  rcases mem_of_mem_tags_builtin tag hmem with htag | htag
  · exact hdefault htag
  · exact h htag

theorem resolve_builtin_of_not_mem {tag : String} (h : tag ∉ Definition.modelledTags) :
    builtin.resolve tag = .ok .anything := by
  by_cases hdefault : tag = defaultTag
  · rw [hdefault]
    rfl
  · unfold resolve
    rw [find?_builtin_of_not_mem h hdefault]
    rfl

end Registry

/-- The compilers that composite nodes ask for by name are there. -/
structure Context.Equipped (ctx : Context) : Prop where
  object : ∃ c, ctx.registry.require "object" = .ok c
  ref : ∃ c, ctx.registry.require "ref" = .ok c

namespace Context.Equipped

theorem of_builtin {ctx : Context} (h : ctx.registry = .builtin) : ctx.Equipped where
  object := ⟨.node .object, by rw [h]; rfl⟩
  ref := ⟨.node .ref, by rw [h]; rfl⟩

theorem of_overlaid {ctx : Context} {overrides : Registry}
    (h : ctx.registry = Registry.builtin.overlaid overrides) : ctx.Equipped where
  object := by
    rw [h]
    exact Registry.require_overlaid (c := .node .object) rfl
  ref := by
    rw [h]
    exact Registry.require_overlaid (c := .node .ref) rfl

end Context.Equipped

namespace Compile

def bodyWith (apply : Apply) (ctx : Context) (d : Definition) (a : Address) : Compile Validator :=
  match d with
  | .object s | .params s => objectWith apply ctx s a
  | .array s => arrayWith apply ctx s a
  | .union s => unionWith apply ctx s a
  | .ref s => refWith apply ctx s a
  | .string s => Compile.string ctx s a
  | .integer s => return s.validator ctx.constPolicy
  | .boolean s => return s.validator ctx.constPolicy
  | .null _ => return .null
  | .unknown _ => return .unknown
  | .blob s => Compile.blob s a
  | .bytes s => return s.validator
  | .cidLink _ => return linkValidator
  | .token _ => return ctx.tokenValidator a
  | .record _ | .query _ | .procedure _ | .subscription _ | .unmodelled _ _ => return .any

theorem dispatchWith_eq_bodyWith {apply : Apply} {ctx : Context} {d : Definition} {a : Address}
    (hregistry : ctx.registry = .builtin) (hd : d.Proper) :
    dispatchWith (applyWith apply) ctx d a = bodyWith apply ctx d a := by
  unfold dispatchWith
  rw [hregistry]
  cases d with
  | unmodelled tag body =>
    have hresolve : Registry.builtin.resolve (Definition.unmodelled tag body).tag = .ok .anything :=
      Registry.resolve_builtin_of_not_mem (hd.modelled tag body rfl)
    rw [hresolve]
    rfl
  | _ => rfl

/-- The compilers that composite nodes ask for by name are the ones for the tag. -/
theorem apply_object_eq {apply : Apply} {ctx : Context} (hctx : ctx.Equipped)
    (s : ObjectShape Definition) (a : Address) :
    (do apply (← ctx.registry.require "object") ctx (.object s) a) =
      dispatchWith apply ctx (.object s) a := by
  obtain ⟨c, hc⟩ := hctx.object
  have hresolve : ctx.registry.resolve (Definition.object s).tag = .ok c :=
    Registry.resolve_of_require hc
  unfold dispatchWith
  rw [hc, hresolve]

theorem apply_ref_eq {apply : Apply} {ctx : Context} {compiler : TypeCompiler}
    (hcompiler : ctx.registry.require "ref" = .ok compiler) (s : RefShape) (a : Address) :
    apply compiler ctx (.ref s) a = dispatchWith apply ctx (.ref s) a := by
  have hresolve : ctx.registry.resolve (Definition.ref s).tag = .ok compiler :=
    Registry.resolve_of_require hcompiler
  unfold dispatchWith
  rw [hresolve]
  rfl

theorem require_ref {ctx : Context} (hregistry : ctx.registry = .builtin) :
    ctx.registry.require "ref" = .ok (.node .ref) := by
  rw [hregistry]
  rfl

/-- A branch of a union is a node like any other: a reference. -/
theorem branchWith_eq_nodeWith {apply : Apply} {ctx : Context} {compiler : TypeCompiler}
    (hcompiler : ctx.registry.require "ref" = .ok compiler) (reference : String) (a : Address) :
    branchWith apply ctx compiler reference a =
      nodeWith apply ctx (.ref { target := reference }) a := by
  rw [branchWith, nodeWith, extendedWith, ← apply_ref_eq hcompiler]
  simp only [bind_assoc]
  rfl

theorem targetWith_record_eq {apply : Apply} {ctx : Context} (hctx : ctx.Equipped)
    (description key : Option String) (s : ObjectShape Definition) (a : Address) :
    targetWith apply ctx (.record ⟨description, key, some s⟩) a = (do
      let v ← dispatchWith apply ctx (.object s) a
      return v.annotate (s.description.or description) none) := by
  rw [← apply_object_eq hctx, bind_assoc]
  rfl

theorem objectFacetWith_eq {apply : Apply} {ctx : Context} (hctx : ctx.Equipped)
    (s : ObjectShape Definition) (a : Address) :
    objectFacetWith apply ctx (some s) a = (do
      match ← override? a with
      | some .omit => return .never
      | some (.replace v) => return v
      | none =>
        markRequired a
        let v ← dispatchWith apply ctx (.object s) a
        extend v s.description none a) := by
  simp only [← apply_object_eq hctx, bind_assoc]
  rfl

theorem string_eq (ctx : Context) (s : StringShape) (a : Address) :
    Compile.string ctx s a = (do
      s.metadata.foldlM (fun _ entries => recordMetadata a entries) ()
      return s.validator ctx.constPolicy) := by
  unfold Compile.string
  simp

theorem Steady.string (ctx : Context) (s : StringShape) (a : Address) :
    Steady (Compile.string ctx s a) := by
  rw [string_eq]
  refine .bind ?_ fun _ => .pure _
  generalize s.metadata = metadata
  induction metadata with
  | nil => exact .pure ()
  | cons entries rest ih =>
    rw [List.foldlM_cons]
    exact .bind (.recordMetadata a entries) fun _ => ih

theorem Steady.blob (s : BlobShape) (a : Address) : Steady (Compile.blob s a) :=
  .bind (.recordMetadata _ _) fun _ => .pure _

variable (apply : Apply) (ctx : Context)

theorem fieldsWith_cons (s : ObjectShape Definition) (a : Address) (key : String) (d : Definition)
    (rest : List (String × Definition)) :
    fieldsWith apply ctx s a ((key, d) :: rest) = (do
      (if s.required.contains key then requireNode (a.property key) else pure ())
      match ← nodeWith apply ctx d (a.property key) with
      | none => fieldsWith apply ctx s a rest
      | some v =>
        let field := if s.nullable.contains key then v.asNullable else v
        return (key, field) :: (← fieldsWith apply ctx s a rest)) := by
  rw [fieldsWith]
  cases s.required.contains key <;> rfl

theorem fieldsWith_append (s : ObjectShape Definition) (a : Address)
    (before after : List (String × Definition)) :
    fieldsWith apply ctx s a (before ++ after) = (do
      let first ← fieldsWith apply ctx s a before
      return first ++ (← fieldsWith apply ctx s a after)) := by
  induction before with
  | nil =>
    rw [fieldsWith, pure_bind]
    exact (bind_pure _).symm
  | cons e rest ih =>
    obtain ⟨key, d⟩ := e
    rw [List.cons_append, fieldsWith_cons, fieldsWith_cons, ih]
    simp only [bind_assoc]
    congr 1
    funext _
    congr 1
    funext result
    cases result with
    | none => rfl
    | some v => simp only [bind_assoc, pure_bind, List.cons_append]

theorem branchesWith_append (compiler : TypeCompiler) (a : Address) (index : Nat)
    (before after : List String) :
    branchesWith apply ctx compiler a index (before ++ after) = (do
      let first ← branchesWith apply ctx compiler a index before
      return first ++ (← branchesWith apply ctx compiler a (index + before.length) after)) := by
  induction before generalizing index with
  | nil =>
    rw [branchesWith, pure_bind]
    exact (bind_pure _).symm
  | cons reference rest ih =>
    have hindex : index + 1 + rest.length = index + (reference :: rest).length := by
      rw [List.length_cons]
      omega
    rw [List.cons_append, branchesWith, branchesWith, ih, hindex]
    simp only [bind_assoc]
    congr 1
    funext result
    cases result with
    | none => rfl
    | some v => simp only [bind_assoc, pure_bind, List.cons_append]

theorem objectWith_eq (s : ObjectShape Definition) (a : Address) :
    objectWith apply ctx s a = (do
      let fields ← fieldsWith apply ctx s a s.properties
      let o ← optionsAt a
      return .object (fields ++ o.additional)) :=
  rfl

theorem definitionWith_of_not_primary {d : Definition} (hd : d.isPrimary = false) (a : Address) :
    definitionWith apply ctx d a = (do return .schema (← extendedWith apply ctx d a)) := by
  cases d <;> first | rfl | exact nomatch hd

end Compile
end Lexicon
