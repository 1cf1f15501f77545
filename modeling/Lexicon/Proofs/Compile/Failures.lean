import Lexicon.Proofs.Compile.Document
import Lexicon.Proofs.Compile.Errors

/-!
# What a compilation can fail with

Whatever the registry is, a compilation reports a reference only if the dictionary does not resolve
it, and never that definitions nest too deep (`CompileError.Justified`). That is shown of a compiler
that lets everything pass at its bound (`justified_openAt`); below the bound it is the same as the
one that fails there, so compiling a document ends by itself (`Document.compile_error`).
-/

namespace Lexicon

/-- The errors there can be with this dictionary: the bound on nesting is never met, and a reference
that is reported leads to no document of the dictionary or to no definition of its document. -/
def CompileError.Justified (dict : Dictionary) : CompileError → Prop
  | .unknownDocument _ nsid => Entries.find? dict nsid = none
  | .unknownDefinition _ target =>
    ∃ doc, Entries.find? dict target.nsid = some doc ∧ doc.definition? target.name = none
  | .tooDeep => False
  | _ => True

open CompileError (Justified)

theorem Context.justified_lookup {ctx : Context} {reference : String} {e : CompileError}
    (h : ctx.lookup reference = .error e) : e.Justified ctx.lexicons := by
  simp only [lookup] at h
  split at h
  · rename_i hdoc
    cases h
    exact hdoc
  · rename_i doc hdoc
    split at h
    · rename_i hd
      cases h
      exact ⟨doc, hdoc, hd⟩
    · cases h

theorem Context.justified_follow? {ctx : Context} {target : Reference} {e : CompileError}
    (h : ctx.follow? target = .error e) : e.Justified ctx.lexicons := by
  unfold follow? at h
  split at h
  · split at h
    · exact nomatch h
    · cases h
      trivial
  · exact nomatch h

namespace Compile

variable {α : Type} {ctx : Context} {d : Definition} {a : Address}

theorem justified_resolve_bind {tag : String} {k : TypeCompiler → Compile α}
    (hk : ∀ x, Raises (Justified ctx.lexicons) (k x)) :
    Raises (Justified ctx.lexicons) (liftM (ctx.registry.resolve tag) >>= k) := by
  refine raises_lift_bind (fun e he => ?_) fun x _ => hk x
  unfold Registry.resolve at he
  split at he
  · cases he
  · cases he
  · cases he
    trivial

theorem justified_require_bind {tag : String} {k : TypeCompiler → Compile α}
    (hk : ∀ x, Raises (Justified ctx.lexicons) (k x)) :
    Raises (Justified ctx.lexicons) (liftM (ctx.registry.require tag) >>= k) := by
  refine raises_lift_bind (fun e he => ?_) fun x _ => hk x
  unfold Registry.require at he
  split at he
  · cases he
  · cases he
    trivial

theorem justified_view_bind {σ : Type} {held : Option σ} {read : Entries Json → Except Mismatch σ}
    {k : σ → Compile α} (hk : ∀ x, Raises (Justified ctx.lexicons) (k x)) :
    Raises (Justified ctx.lexicons) (view held read d a >>= k) := by
  cases held with
  | some s => exact hk s
  | none =>
    refine raises_lift_bind (fun e he => ?_) fun x _ => hk x
    cases hread : d.reread read with
    | error e' =>
      rw [hread] at he
      cases he
      trivial
    | ok s =>
      rw [hread] at he
      exact nomatch he

def Justifies (apply : Apply) : Prop :=
  ∀ compiler ctx d a, Raises (Justified ctx.lexicons) (apply compiler ctx d a)

section
variable {apply : Apply} (h : Justifies apply)
include h

theorem justified_dispatchWith : Raises (Justified ctx.lexicons) (dispatchWith apply ctx d a) :=
  justified_resolve_bind fun compiler => h compiler ctx d a

theorem justified_extendedWith : Raises (Justified ctx.lexicons) (extendedWith apply ctx d a) :=
  raises_bind (justified_dispatchWith h) fun v => (Steady.extend v _ _ a).raises

theorem justified_nodeWith : Raises (Justified ctx.lexicons) (nodeWith apply ctx d a) := by
  refine raises_bind (Steady.override? a).raises fun o => ?_
  rcases o with _ | _ | v
  · exact raises_map some (justified_extendedWith h)
  · exact (Steady.pure _).raises
  · exact (Steady.pure _).raises

theorem justified_fieldsWith (s : ObjectShape Definition)
    (properties : List (String × Definition)) :
    Raises (Justified ctx.lexicons) (fieldsWith apply ctx s a properties) := by
  induction properties with
  | nil => exact (Steady.pure []).raises
  | cons e rest ih =>
    obtain ⟨key, d⟩ := e
    rw [fieldsWith_cons]
    refine raises_bind (Steady.raises ?_) fun _ => raises_bind (justified_nodeWith h) fun v => ?_
    · split
      · exact .requireNode _
      · exact .pure ()
    · cases v with
      | none => exact ih
      | some v => exact raises_map _ ih

theorem justified_objectWith (s : ObjectShape Definition) :
    Raises (Justified ctx.lexicons) (objectWith apply ctx s a) := by
  rw [objectWith_eq]
  exact raises_bind (justified_fieldsWith h s s.properties) fun _ =>
    (Steady.bind (.optionsAt a) fun _ => .pure _).raises

theorem justified_branchesWith (compiler : TypeCompiler) (index : Nat) (refs : List String) :
    Raises (Justified ctx.lexicons) (branchesWith apply ctx compiler a index refs) := by
  induction refs generalizing index with
  | nil => exact (Steady.pure []).raises
  | cons reference rest ih =>
    refine raises_bind (raises_bind (Steady.override? _).raises fun o => ?_) fun v => ?_
    · rcases o with _ | _ | v
      · exact raises_bind (h compiler ctx _ _) fun v =>
          raises_map some (Steady.extend v none none _).raises
      · exact (Steady.pure _).raises
      · exact (Steady.pure _).raises
    · cases v with
      | none => exact ih (index + 1)
      | some v => exact raises_map _ (ih (index + 1))

theorem justified_targetWith (target : Definition) :
    Raises (Justified ctx.lexicons) (targetWith apply ctx target a) := by
  have hdispatch : Raises (Justified ctx.lexicons) (dispatchWith apply ctx target a) :=
    justified_dispatchWith h
  cases target with
  | record s =>
    obtain ⟨description, key, body⟩ := s
    cases body with
    | none => exact (Steady.pure _).raises
    | some s => exact justified_require_bind fun compiler => raises_map _ (h compiler ctx _ a)
  | _ => exact raises_map _ hdispatch

theorem justified_refWith (s : RefShape) :
    Raises (Justified ctx.lexicons) (refWith apply ctx s a) := by
  unfold refWith
  split
  · refine raises_lift_bind (fun e he => Context.justified_lookup he) fun d _ => ?_
    refine raises_lift_bind (fun e he => Context.justified_follow? he) fun o ho => ?_
    cases o with
    | none => exact (Steady.pure _).raises
    | some inner =>
      obtain ⟨rfl, _⟩ := Context.follow?_eq_some ho
      -- Entering a definition leaves the dictionary as it is.
      have htarget : Raises (Justified (ctx.enter (ctx.qualify s.target)).lexicons)
          (targetWith apply (ctx.enter (ctx.qualify s.target)) d a) := justified_targetWith h d
      exact htarget
  · exact (Steady.pure _).raises

theorem justified_typedWith (type : NodeType) :
    Raises (Justified ctx.lexicons) (typedWith apply ctx type d a) := by
  cases type with
  | string => exact justified_view_bind fun s => (Steady.string ctx s a).raises
  | blob => exact justified_view_bind fun s => (Steady.blob s a).raises
  | array => exact justified_view_bind fun _ => raises_map _ (justified_nodeWith h)
  | object => exact justified_view_bind fun s => justified_objectWith h s
  | union =>
    exact justified_view_bind fun s => justified_require_bind fun compiler =>
      raises_map _ (justified_branchesWith h compiler 0 s.refs)
  | ref => exact justified_view_bind fun s => justified_refWith h s
  | _ => exact justified_view_bind fun _ => (Steady.pure _).raises

theorem justified_objectFacetWith (shape : Option (ObjectShape Definition)) (a : Address) :
    Raises (Justified ctx.lexicons) (objectFacetWith apply ctx shape a) := by
  cases shape with
  | none => exact (Steady.pure _).raises
  | some s =>
    refine raises_bind (Steady.override? a).raises fun o => ?_
    rcases o with _ | _ | v
    · refine raises_bind (Steady.markRequired a).raises fun _ => justified_require_bind fun x => ?_
      exact raises_bind (h x ctx _ a) fun v => (Steady.extend v _ _ a).raises
    · exact (Steady.pure _).raises
    · exact (Steady.pure v).raises

theorem justified_schemaFacetWith (schema : Option Definition) (a : Address) :
    Raises (Justified ctx.lexicons) (schemaFacetWith apply ctx schema a) := by
  cases schema with
  | none => exact (Steady.pure _).raises
  | some d =>
    exact raises_bind (Steady.requireNode a).raises fun _ => raises_map _ (justified_nodeWith h)

theorem justified_bodyFacetsWith (body : Option (Body Definition)) (a : Address) :
    Raises (Justified ctx.lexicons) (bodyFacetsWith apply ctx body a) := by
  cases body with
  | none => exact (Steady.pure _).raises
  | some b => exact raises_map _ (justified_schemaFacetWith h b.schema _)

theorem justified_envelopeWith : Raises (Justified ctx.lexicons) (envelopeWith apply ctx d a) := by
  have hobject := @justified_objectFacetWith ctx apply h
  have hbody := @justified_bodyFacetsWith ctx apply h
  cases d with
  | record s => exact raises_map _ (hobject _ _)
  | query s => exact raises_bind (hobject _ _) fun _ => raises_map _ (hbody _ _)
  | procedure s =>
    refine raises_bind (hobject _ _) fun _ => raises_bind (hbody _ _) fun _ => ?_
    exact raises_map _ (hbody _ _)
  | subscription s =>
    exact raises_bind (hobject _ _) fun _ => raises_map _ (justified_schemaFacetWith h _ _)
  | _ => exact (Steady.pure none).raises

theorem justified_definitionWith :
    Raises (Justified ctx.lexicons) (definitionWith apply ctx d a) := by
  refine raises_bind (justified_envelopeWith h) fun c => ?_
  cases c with
  | some c => exact (Steady.pure c).raises
  | none => exact raises_map _ (justified_extendedWith h)

end

/-- Compiles a definition, but at the bound everything is accepted. -/
def openAt : Nat → Apply
  | 0 => fun _ _ _ _ => return .any
  | depth + 1 => applyWith (openAt depth)

theorem justified_openAt (n : Nat) : Justifies (openAt n) := by
  induction n with
  | zero => exact fun _ _ _ _ => (Steady.pure _).raises
  | succ n ih =>
    intro compiler ctx d a
    cases compiler with
    | anything => exact (Steady.pure _).raises
    | constant v => exact (Steady.pure v).raises
    | unsupported tag =>
      rintro t _ ⟨⟩
      trivial
    | node type => exact justified_typedWith ih type

theorem compileAt_eq_openAt {n : Nat} (hn : ctx.rank d < n)
    (compiler : TypeCompiler) : compileAt n compiler ctx d a = openAt n compiler ctx d a := by
  induction n generalizing compiler ctx d a with
  | zero => omega
  | succ n ih => exact applyWith_congr (fun _ _ _ _ hlt => ih (by omega) _) compiler

theorem justified_compileDefinition (ctx : Context) (d : Definition) (a : Address) :
    Raises (Justified ctx.lexicons) (ctx.compileDefinition d a) := by
  have heq : ctx.compileDefinition d a = definitionWith (openAt (ctx.depth d)) ctx d a :=
    definitionWith_congr fun _ he compiler _ =>
      compileAt_eq_openAt (rank_lt_depth_of_weight_le he) compiler
  rw [heq]
  exact justified_definitionWith (justified_openAt _)

theorem justified_definitions (ctx : Context) (nsid : String) (defs : List (String × Definition)) :
    Raises (Justified ctx.lexicons) (definitions ctx nsid defs) := by
  induction defs with
  | nil => exact (Steady.pure []).raises
  | cons e rest ih =>
    obtain ⟨name, d⟩ := e
    refine raises_bind (Steady.override? name).raises fun o => ?_
    rcases o with _ | _ | v
    · exact raises_bind (justified_compileDefinition (ctx.enter ⟨nsid, name⟩) d name) fun _ =>
        raises_map _ ih
    · exact ih
    · exact raises_map _ ih

end Compile

theorem Document.compile_error {doc : Document} {o : CompileOptions} {e : CompileError}
    (h : doc.compile o = .error e) : e.Justified (o.lexicons.joined doc) := by
  have hdict : ((Context.ofOptions o).register doc).lexicons = o.lexicons.joined doc :=
    Context.lexicons_register rfl
  rw [← hdict]
  exact Compile.justified_definitions _ _ _ _ _ (compile_eq_error.mp h)

end Lexicon
