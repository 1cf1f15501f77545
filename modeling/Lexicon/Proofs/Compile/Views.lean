import Lexicon.Proofs.Compile.Builtin
import Lexicon.Proofs.Compile.Depth
import Lexicon.Proofs.Compile.Facets
import Lexicon.Proofs.Registry

/-!
# Definitions as their compilers see them

A registry may have the compiler of one type serve another tag, and the definition is then read
again. `Context.Views ctx d e` says that the compiler of `d` sees it as `e`, and compiling `d` is
then compiling `e` by its constructor (`dispatchWith_of_views`), under every registry. The built-in
compilers are never missing there, so nodes that stand for themselves, such as the branches of a
union and the facets of an envelope, are compiled like any others.
-/

namespace Lexicon

namespace Definition

/-- The shape that a definition holds, or else the one that it is read again as. -/
def seenAs {σ : Type} (make : σ → Definition) (held : Option σ)
    (read : Entries Json → Except Mismatch σ) (d : Definition) : Except DefinitionError Definition :=
  match held with
  | some s => .ok (make s)
  | none => (d.reread read).map make

/-- The definition as the compiler of a type sees it. Parameters are seen as an object. -/
def viewedAs (type : NodeType) (d : Definition) : Except DefinitionError Definition :=
  match type with
  | .string =>
    seenAs string (match d with | string s => some s | _ => none) StringShape.reader.ofFields d
  | .integer =>
    seenAs integer (match d with | integer s => some s | _ => none) IntegerShape.reader.ofFields d
  | .boolean =>
    seenAs boolean (match d with | boolean s => some s | _ => none) BooleanShape.reader.ofFields d
  | .null => seenAs null (match d with | null s => some s | _ => none) BareShape.reader.ofFields d
  | .unknown =>
    seenAs unknown (match d with | unknown s => some s | _ => none) BareShape.reader.ofFields d
  | .blob => seenAs blob (match d with | blob s => some s | _ => none) BlobShape.reader.ofFields d
  | .bytes =>
    seenAs bytes (match d with | bytes s => some s | _ => none) BytesShape.reader.ofFields d
  | .cidLink =>
    seenAs cidLink (match d with | cidLink s => some s | _ => none) BareShape.reader.ofFields d
  | .token => seenAs token (match d with | token s => some s | _ => none) BareShape.reader.ofFields d
  | .array =>
    seenAs array (match d with | array s => some s | _ => none) (ArrayShape.ofFields ofJson) d
  | .object =>
    seenAs object (match d with | object s | params s => some s | _ => none)
      (ObjectShape.reader ofJson).ofFields d
  | .union =>
    seenAs union (match d with | union s => some s | _ => none) UnionShape.reader.ofFields d
  | .ref => seenAs ref (match d with | ref s => some s | _ => none) RefShape.ofFields d

/-- The definition that a reference to this one compiles: a record stands for its object, and there
is nothing where it has none. -/
def standIn? : Definition → Option Definition
  | record s => s.record.map object
  | d => some d

/-- What is seen of a definition is no other than the definition, except that parameters are seen as
an object. -/
theorem viewedAs_self {d e : Definition} {type : NodeType} (h : d.viewedAs type = .ok e)
    (htag : Registry.builtin.resolve d.tag = .ok (.node type)) (hd : d.Proper) :
    e = d ∨ ∃ s, d = params s ∧ e = object s := by
  cases d with
  | unmodelled tag body =>
    have hresolve : Registry.builtin.resolve (unmodelled tag body).tag = .ok .anything :=
      Registry.resolve_builtin_of_not_mem (hd.modelled tag body rfl)
    rw [hresolve] at htag
    cases htag
  | params s =>
    cases htag
    cases h
    exact .inr ⟨s, rfl, rfl⟩
  | record s | query s | procedure s | subscription s => cases htag
  | _ =>
    cases htag
    exact .inl (Except.ok.inj h).symm

end Definition

def Context.Views (ctx : Context) (d e : Definition) : Prop :=
  ∃ type, ctx.registry.resolve d.tag = .ok (.node type) ∧ d.viewedAs type = .ok e

theorem Definition.exists_of_seenAs {σ : Type} {make : σ → Definition} {held : Option σ}
    {read : Entries Json → Except Mismatch σ} {d e : Definition}
    (h : seenAs make held read d = .ok e) : ∃ s, make s = e := by
  unfold seenAs at h
  split at h
  · exact ⟨_, Except.ok.inj h⟩
  · obtain ⟨s, _, hs⟩ := map_eq_ok.mp h
    exact ⟨s, hs⟩

/-- Parameters are seen as an object. -/
theorem Context.not_views_params {ctx : Context} {d : Definition} {s : ObjectShape Definition} :
    ¬ ctx.Views d (.params s) := by
  rintro ⟨type, -, hview⟩
  unfold Definition.viewedAs at hview
  split at hview <;> exact nomatch (Definition.exists_of_seenAs hview)

namespace Compile

variable {apply : Apply} {ctx : Context} {d e : Definition} {a : Address}

/-- A compiler reads what it sees, and then compiles it. -/
theorem typedWith_eq (apply : Apply) (ctx : Context) (type : NodeType) (d : Definition)
    (a : Address) :
    typedWith apply ctx type d a =
      (do bodyWith apply ctx (← liftM ((d.viewedAs type).mapError (CompileError.malformed a))) a) := by
  have hview {σ : Type} {make : σ → Definition} {held : Option σ}
      {read : Entries Json → Except Mismatch σ} {k : σ → Compile Validator}
      (hk : ∀ s, k s = bodyWith apply ctx (make s) a) :
      (view held read d a >>= k) =
        liftM ((Definition.seenAs make held read d).mapError (CompileError.malformed a)) >>=
          fun e => bodyWith apply ctx e a := by
    cases held with
    | some s => exact hk s
    | none =>
      unfold view Definition.seenAs
      cases d.reread read with
      | error _ => rfl
      | ok s => exact hk s
  cases type <;> exact hview fun _ => rfl

theorem dispatchWith_of_views (h : ctx.Views d e) :
    dispatchWith (applyWith apply) ctx d a = bodyWith apply ctx e a := by
  obtain ⟨type, hresolve, hview⟩ := h
  unfold dispatchWith
  rw [hresolve]
  change typedWith apply ctx type d a = _
  rw [typedWith_eq, hview]
  rfl

/-- A reference compiles what stands in for its target, and annotates it. -/
theorem targetWith_eq (hctx : ctx.Equipped) (target : Definition) (a : Address) :
    targetWith apply ctx target a =
      match target.standIn? with
      | none => return .never
      | some e => do
        let v ← dispatchWith apply ctx e a
        return v.annotate (e.description.or target.description) target.default? := by
  cases target with
  | record s =>
    obtain ⟨description, key, body⟩ := s
    cases body with
    | none => rfl
    | some s => exact targetWith_record_eq hctx description key s a
  | _ =>
    simp only [Definition.standIn?, Option.or_self]
    rfl

/-- The facets of an envelope are compiled one after the other. -/
theorem definitionWith_of_primary (apply : Apply) (hctx : ctx.Equipped)
    (hprimary : d.isPrimary = true) (a : Address) :
    ∃ c : Entries Validator → Compiled, (∀ vs, d.envelope vs = some (c vs)) ∧
      definitionWith apply ctx d a = (do return c (← facetsWith apply ctx a d.slots)) := by
  obtain ⟨c, hc⟩ := Definition.exists_envelope hprimary
  exact ⟨c, hc, definitionWith_of_envelope hc hctx a⟩

end Compile

end Lexicon
