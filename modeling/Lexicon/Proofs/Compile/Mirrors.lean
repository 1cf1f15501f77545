import Lexicon.Proofs.Compile.Depth
import Lexicon.Proofs.Compile.Facets

/-!
# Compiling at other addresses

`Mirrors R c c'` says that the compilations `c` and `c'` take the same steps, each at a pair of
addresses that `R` relates. A definition compiles alike at related addresses, if `R` goes on to
properties, and it makes no difference there in which of two like dictionaries its references are
looked up (`mirrors_unbounded`). What such steps do to the tables is read off the relation: they
only make nodes mandatory (`Mirrors.effect`), and on tables that correspond they have the same
results (`Mirrors.run`).
-/

namespace Lexicon

def Dictionary.Alike (dict dict' : Dictionary) : Prop :=
  ∀ nsid, (Entries.find? dict nsid).map Document.definition? =
    (Entries.find? dict' nsid).map Document.definition?

namespace Context

def reading (ctx : Context) (dict : Dictionary) : Context := { ctx with lexicons := dict }

theorem lookup_reading {ctx : Context} {dict : Dictionary} (h : ctx.lexicons.Alike dict)
    (reference : String) : (ctx.reading dict).lookup reference = ctx.lookup reference := by
  have hqualify : (ctx.reading dict).qualify reference = ctx.qualify reference := rfl
  have hlexicons : (ctx.reading dict).lexicons = dict := rfl
  have hsame := h (ctx.qualify reference).nsid
  unfold lookup
  rw [hqualify, hlexicons]
  cases hdoc : Entries.find? ctx.lexicons (ctx.qualify reference).nsid with
  | none =>
    rw [hdoc, Option.map_none, eq_comm, Option.map_eq_none_iff] at hsame
    simp only [hsame, hdoc]
  | some doc =>
    rw [hdoc, Option.map_some, eq_comm, Option.map_eq_some_iff] at hsame
    obtain ⟨doc', hdoc', hdefinition⟩ := hsame
    simp only [hdoc', hdoc, hdefinition]

/-- Tokens have the same names at related addresses. Inside a definition a token is named for the
definition, and outside of all for its address. -/
def NamesAlike (ctx : Context) (R : Address → Address → Prop) : Prop :=
  ctx.scope ≠ [] ∨ ∀ a b, R a b → a = b

theorem namesAlike_eq (ctx : Context) : ctx.NamesAlike Eq := .inr fun _ _ => id

theorem tokenName_eq {ctx : Context} {R : Address → Address → Prop} (h : ctx.NamesAlike R)
    {a b : Address} (hab : R a b) : ctx.tokenName a = ctx.tokenName b := by
  rcases h with h | h
  · unfold tokenName current?
    cases hscope : ctx.scope with
    | nil => exact absurd hscope h
    | cons r rest => rfl
  · rw [h a b hab]

end Context

namespace Compile

variable {α β : Type} {c c' : Compile α} {f f' : α → Compile β} {R : Address → Address → Prop}
  {a b : Address}

/-- Two compilations take the same steps, each at a pair of related addresses. -/
inductive Mirrors (R : Address → Address → Prop) : {α : Type} → Compile α → Compile α → Prop
  | pure {α : Type} (x : α) : Mirrors R (pure x : Compile α) (pure x)
  | throw {α : Type} (e : CompileError) : Mirrors R (throw e : Compile α) (throw e)
  | malformed {α : Type} {a b : Address} (h : R a b) (e : DefinitionError) :
    Mirrors R (throw (.malformed a e) : Compile α) (throw (.malformed b e))
  | bind {α β : Type} {c c' : Compile α} {f f' : α → Compile β} (hc : Mirrors R c c')
    (hf : ∀ x, Mirrors R (f x) (f' x)) : Mirrors R (c >>= f) (c' >>= f')
  | optionsAt {a b : Address} (h : R a b) : Mirrors R (optionsAt a) (optionsAt b)
  | requireNode {a b : Address} (h : R a b) : Mirrors R (requireNode a) (requireNode b)
  | recordMetadata {a b : Address} (h : R a b) (entries : Entries Json) :
    Mirrors R (recordMetadata a entries) (recordMetadata b entries)

namespace Mirrors

theorem map (g : α → β) (hc : Mirrors R c c') :
    Mirrors R (c >>= fun x => Pure.pure (g x)) (c' >>= fun x => Pure.pure (g x)) :=
  .bind hc fun x => .pure (g x)

theorem lift_bind {x : Except CompileError α} (hf : ∀ y, Mirrors R (f y) (f' y)) :
    Mirrors R (liftM x >>= f) (liftM x >>= f') := by
  cases x with
  | error e => exact .throw e
  | ok y => exact hf y

theorem override? (h : R a b) : Mirrors R (Compile.override? a) (Compile.override? b) := by
  rw [override?_eq, override?_eq]
  exact .map _ (.optionsAt h)

theorem extend (v : Validator) (description : Option String) (default : Option Json) (h : R a b) :
    Mirrors R (Compile.extend v description default a) (Compile.extend v description default b) := by
  rw [extend_eq, extend_eq]
  refine .bind (.optionsAt h) fun o => ?_
  cases o.metadata? with
  | none => exact .pure _
  | some metadata => exact .map _ (.recordMetadata h metadata)

theorem view_bind {σ : Type} {held : Option σ} {read : Entries Json → Except Mismatch σ}
    {d : Definition} {f f' : σ → Compile β} (h : R a b) (hf : ∀ s, Mirrors R (f s) (f' s)) :
    Mirrors R (view held read d a >>= f) (view held read d b >>= f') := by
  cases held with
  | some s => exact hf s
  | none =>
    unfold view
    cases d.reread read with
    | error e => exact .malformed h e
    | ok s => exact hf s

theorem string (ctx : Context) (s : StringShape) (h : R a b) :
    Mirrors R (Compile.string ctx s a) (Compile.string ctx s b) := by
  rw [string_eq, string_eq]
  refine .map _ ?_
  generalize s.metadata = metadata
  induction metadata with
  | nil => exact .pure ()
  | cons entries rest ih =>
    rw [List.foldlM_cons, List.foldlM_cons]
    exact .bind (.recordMetadata h entries) fun _ => ih

end Mirrors

/-! ## Nodes -/

def Closed (R : Address → Address → Prop) : Prop :=
  ∀ a b key, R a b → R (a.property key) (b.property key)

theorem closed_moves {p q : Address} (hp : p ≠ "") (hq : q ≠ "") : Closed (Address.Moves p q) :=
  fun _ _ key h => h.property hp hq key

theorem closed_eq : Closed Eq := fun _ _ key h => congrArg (Address.property · key) h

def Relocates (R : Address → Address → Prop) (apply : Apply) : Prop :=
  ∀ compiler (ctx : Context) dict d a b, ctx.lexicons.Alike dict → ctx.NamesAlike R → R a b →
    Mirrors R (apply compiler ctx d a) (apply compiler (ctx.reading dict) d b)

section
variable {apply : Apply} {ctx : Context} {dict : Dictionary} {d : Definition}
variable (happly : Relocates R apply) (hdict : ctx.lexicons.Alike dict)

section
variable (hscope : ctx.NamesAlike R) (h : R a b)
include happly hdict hscope h

theorem mirrors_dispatchWith :
    Mirrors R (dispatchWith apply ctx d a) (dispatchWith apply (ctx.reading dict) d b) :=
  .lift_bind fun compiler => happly compiler ctx dict d a b hdict hscope h

theorem mirrors_extendedWith :
    Mirrors R (extendedWith apply ctx d a) (extendedWith apply (ctx.reading dict) d b) :=
  .bind (mirrors_dispatchWith happly hdict hscope h) fun v => .extend v _ _ h

theorem mirrors_nodeWith :
    Mirrors R (nodeWith apply ctx d a) (nodeWith apply (ctx.reading dict) d b) := by
  refine .bind (.override? h) fun o => ?_
  rcases o with _ | _ | v
  · exact .map some (mirrors_extendedWith happly hdict hscope h)
  · exact .pure none
  · exact .pure (some v)

theorem mirrors_branchWith (compiler : TypeCompiler) (reference : String) :
    Mirrors R (branchWith apply ctx compiler reference a)
      (branchWith apply (ctx.reading dict) compiler reference b) := by
  refine .bind (.override? h) fun o => ?_
  rcases o with _ | _ | v
  · exact .bind (happly compiler ctx dict _ a b hdict hscope h) fun v =>
      .map some (.extend v none none h)
  · exact .pure none
  · exact .pure (some v)

theorem mirrors_targetWith :
    Mirrors R (targetWith apply ctx d a) (targetWith apply (ctx.reading dict) d b) := by
  have hdispatch := mirrors_dispatchWith (d := d) happly hdict hscope h
  cases d with
  | record s =>
    obtain ⟨description, key, body⟩ := s
    cases body with
    | none => exact .pure _
    | some s =>
      exact .lift_bind fun compiler => .map _ (happly compiler ctx dict _ a b hdict hscope h)
  | _ => exact .map _ hdispatch

end

section
include happly hdict

/-- A reference is looked up alike, and what it leads to is compiled at the address of the node. -/
theorem mirrors_refWith (h : R a b) (s : RefShape) :
    Mirrors R (refWith apply ctx s a) (refWith apply (ctx.reading dict) s b) := by
  have hfollowRefs : (ctx.reading dict).followRefs = ctx.followRefs := rfl
  have hqualify : (ctx.reading dict).qualify s.target = ctx.qualify s.target := rfl
  unfold refWith
  rw [hfollowRefs, Context.lookup_reading hdict, hqualify]
  split
  · refine .lift_bind fun target => ?_
    have hinner : (ctx.reading dict).follow? (ctx.qualify s.target) =
        (ctx.follow? (ctx.qualify s.target)).map (Option.map (·.reading dict)) := by
      have hscopes : (ctx.reading dict).scope = ctx.scope := rfl
      have hpolicy : (ctx.reading dict).cyclePolicy = ctx.cyclePolicy := rfl
      unfold Context.follow?
      rw [hscopes, hpolicy]
      split
      · split <;> rfl
      · rfl
    rw [hinner]
    cases hfollow : ctx.follow? (ctx.qualify s.target) with
    | error e => exact .throw e
    | ok inner =>
      cases inner with
      | none => exact .pure _
      | some inner =>
        obtain ⟨rfl, _⟩ := Context.follow?_eq_some hfollow
        exact mirrors_targetWith happly hdict (.inl (List.cons_ne_nil _ _)) h
  · exact .pure _

end

variable (hR : Closed R) (hscope : ctx.NamesAlike R) (h : R a b)
include hR happly hdict hscope h

theorem mirrors_fieldsWith (s : ObjectShape Definition) (properties : List (String × Definition)) :
    Mirrors R (fieldsWith apply ctx s a properties)
      (fieldsWith apply (ctx.reading dict) s b properties) := by
  induction properties with
  | nil => exact .pure []
  | cons e rest ih =>
    obtain ⟨key, d⟩ := e
    have hkey := hR a b key h
    rw [fieldsWith_cons, fieldsWith_cons]
    refine .bind ?_ fun _ => .bind (mirrors_nodeWith happly hdict hscope hkey) fun v => ?_
    · split
      · exact .requireNode hkey
      · exact .pure ()
    · cases v with
      | none => exact ih
      | some v => exact .map _ ih

theorem mirrors_objectWith (s : ObjectShape Definition) :
    Mirrors R (objectWith apply ctx s a) (objectWith apply (ctx.reading dict) s b) := by
  rw [objectWith_eq, objectWith_eq]
  exact .bind (mirrors_fieldsWith happly hdict hR hscope h s s.properties) fun _ =>
    .map _ (.optionsAt h)

theorem mirrors_arrayWith (s : ArrayShape Definition) :
    Mirrors R (arrayWith apply ctx s a) (arrayWith apply (ctx.reading dict) s b) :=
  .map _ (mirrors_nodeWith happly hdict hscope (hR a b _ h))

theorem mirrors_branchesWith (compiler : TypeCompiler) (index : Nat) (refs : List String) :
    Mirrors R (branchesWith apply ctx compiler a index refs)
      (branchesWith apply (ctx.reading dict) compiler b index refs) := by
  induction refs generalizing index with
  | nil => exact .pure []
  | cons reference rest ih =>
    have hbranch : R (a.branch index) (b.branch index) := hR a b _ h
    refine .bind (mirrors_branchWith happly hdict hscope hbranch compiler reference) fun v => ?_
    cases v with
    | none => exact ih (index + 1)
    | some v => exact .map _ (ih (index + 1))

theorem mirrors_unionWith (s : UnionShape) :
    Mirrors R (unionWith apply ctx s a) (unionWith apply (ctx.reading dict) s b) :=
  .lift_bind fun compiler => .map _ (mirrors_branchesWith happly hdict hR hscope h compiler 0 s.refs)

theorem mirrors_typedWith (type : NodeType) :
    Mirrors R (typedWith apply ctx type d a) (typedWith apply (ctx.reading dict) type d b) := by
  cases type with
  | string => exact .view_bind h fun s => .string ctx s h
  | blob => exact .view_bind h fun s => .map _ (.recordMetadata (hR a b _ h) _)
  | token =>
    refine .view_bind h fun s => ?_
    have htoken : (ctx.reading dict).tokenValidator b = ctx.tokenValidator a := by
      unfold Context.tokenValidator
      rw [Context.tokenName_eq hscope h]
      rfl
    rw [htoken]
    exact .pure _
  | array => exact .view_bind h fun s => mirrors_arrayWith happly hdict hR hscope h s
  | object => exact .view_bind h fun s => mirrors_objectWith happly hdict hR hscope h s
  | union => exact .view_bind h fun s => mirrors_unionWith happly hdict hR hscope h s
  | ref => exact .view_bind h fun s => mirrors_refWith happly hdict h s
  | _ => exact .view_bind h fun s => .pure _

end

theorem mirrors_compileAt (hR : Closed R) (n : Nat) : Relocates R (compileAt n) := by
  induction n with
  | zero => exact fun _ _ _ _ _ _ _ _ _ => .throw _
  | succ n ih =>
    intro compiler ctx dict d a b hdict hscope h
    cases compiler with
    | anything => exact .pure _
    | constant v => exact .pure v
    | unsupported tag => exact .throw _
    | node type => exact mirrors_typedWith ih hdict hR hscope h type

/-- Definitions compile alike at related addresses. -/
theorem mirrors_unbounded (hR : Closed R) : Relocates R unbounded := by
  intro compiler ctx dict d a b hdict hscope h
  -- The two dictionaries bound the nesting differently, so a bound above both is taken.
  have hleft := ctx.rank_lt_depth d
  have hright := (ctx.reading dict).rank_lt_depth d
  have hmax := mirrors_compileAt hR (max (ctx.depth d) ((ctx.reading dict).depth d)) compiler ctx
    dict d a b hdict hscope h
  rwa [compileAt_eq_unbounded (by omega), compileAt_eq_unbounded (by omega)] at hmax

theorem relocates_eq : Relocates Eq unbounded := mirrors_unbounded closed_eq

/-- Where addresses are related to themselves alone, a node compiles alike to itself in every
context. -/
theorem mirrors_self (hR : Closed R) (hsame : ∀ b c, R b c → b = c) (ctx : Context)
    (d : Definition) (h : R a a) :
    Mirrors R (nodeWith unbounded ctx d a) (nodeWith unbounded ctx d a) := by
  have hdict : ctx.lexicons.Alike ctx.lexicons := fun _ => rfl
  exact mirrors_nodeWith (mirrors_unbounded hR) hdict (.inr hsame) h

/-! ## Top-level definitions -/

section
variable {apply : Apply} {ctx : Context} {dict : Dictionary} {d : Definition}
variable (happly : Relocates R apply) (hdict : ctx.lexicons.Alike dict) (hscope : ctx.NamesAlike R)

section
variable (h : R a b)
include happly hdict hscope h

theorem mirrors_objectFacetWith (shape : Option (ObjectShape Definition)) :
    Mirrors R (objectFacetWith apply ctx shape a)
      (objectFacetWith apply (ctx.reading dict) shape b) := by
  cases shape with
  | none => exact .pure _
  | some s =>
    rw [objectFacetWith_some, objectFacetWith_some]
    refine .bind (.requireNode h) fun _ => .bind (.override? h) fun o => ?_
    rcases o with _ | _ | v
    · refine .lift_bind fun compiler => .bind ?_ fun v => .extend v _ _ h
      exact happly compiler ctx dict _ a b hdict hscope h
    · exact .pure _
    · exact .pure v

theorem mirrors_schemaFacetWith (schema : Option Definition) :
    Mirrors R (schemaFacetWith apply ctx schema a)
      (schemaFacetWith apply (ctx.reading dict) schema b) := by
  cases schema with
  | none => exact .pure _
  | some d =>
    exact .bind (.requireNode h) fun _ => .map _ (mirrors_nodeWith happly hdict hscope h)

end

variable (hR : Closed R) (h : R a b)
include happly hdict hscope hR h

theorem mirrors_bodyFacetsWith (body : Option (Body Definition)) :
    Mirrors R (bodyFacetsWith apply ctx body a) (bodyFacetsWith apply (ctx.reading dict) body b) := by
  cases body with
  | none => exact .pure _
  | some s => exact .map _ (mirrors_schemaFacetWith happly hdict hscope (hR a b _ h) s.schema)

theorem mirrors_envelopeWith :
    Mirrors R (envelopeWith apply ctx d a) (envelopeWith apply (ctx.reading dict) d b) := by
  have hobject := fun key => mirrors_objectFacetWith happly hdict hscope (hR a b key h)
  have hbody := fun key => mirrors_bodyFacetsWith happly hdict hscope hR (hR a b key h)
  cases d with
  | record s => exact .map _ (hobject _ _)
  | query s => exact .bind (hobject _ _) fun _ => .map _ (hbody _ _)
  | procedure s =>
    exact .bind (hobject _ _) fun _ => .bind (hbody _ _) fun _ => .map _ (hbody _ _)
  | subscription s =>
    exact .bind (hobject _ _) fun _ =>
      .map _ (mirrors_schemaFacetWith happly hdict hscope (hR _ _ _ (hR a b _ h)) _)
  | _ => exact .pure none

theorem mirrors_definitionWith :
    Mirrors R (definitionWith apply ctx d a) (definitionWith apply (ctx.reading dict) d b) := by
  refine .bind (mirrors_envelopeWith happly hdict hscope hR h) fun c => ?_
  cases c with
  | some c => exact .pure c
  | none => exact .map _ (mirrors_extendedWith happly hdict hscope h)

end

end Compile
end Lexicon
