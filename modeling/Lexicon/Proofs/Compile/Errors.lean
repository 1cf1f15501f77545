import Lexicon.Proofs.Compile.Builtin
import Lexicon.Proofs.Compile.Depth

/-!
# Where a compilation fails

Under the built-in registry, definitions as they can be read compile unless a reference is followed
that leads nowhere or back to a definition under way: no other error ends the compilation of a node
(`Context.compileNode_error`). The induction is on the bound on nesting (`raises_compileAt`).
-/

namespace Lexicon

def CompileError.OfReference : CompileError → Prop
  | unknownDocument _ _ | unknownDefinition _ _ | cycle _ => True
  | _ => False

/-- In this context only references fail, where they are followed, and with errors in `E`. -/
structure Context.Raises (ctx : Context) (E : CompileError → Prop) : Prop where
  registry : ctx.registry = .builtin
  proper : ∀ r d, ctx.lexicons.definition? r = some d → d.All Definition.Proper
  references : ctx.followRefs = true → ∀ e : CompileError, e.OfReference → E e

section
variable {ctx : Context} {E : CompileError → Prop} {e : CompileError}

theorem Context.Raises.enter (h : ctx.Raises E) (r : Reference) : (ctx.enter r).Raises E where
  registry := h.registry
  proper := h.proper
  references := h.references

theorem Context.ofReference_lookup {reference : String} (h : ctx.lookup reference = .error e) :
    e.OfReference := by
  simp only [lookup] at h
  split at h
  · cases h
    trivial
  · split at h
    · cases h
      trivial
    · cases h

theorem Context.ofReference_follow? {target : Reference} (h : ctx.follow? target = .error e) :
    e.OfReference := by
  unfold follow? at h
  split at h
  · split at h
    · exact nomatch h
    · cases h
      trivial
  · exact nomatch h

end

namespace Compile

variable {α β : Type} {c : Compile α} {f : α → Compile β} {E : CompileError → Prop} {a : Address}
  {d : Definition} {n : Nat} {apply : Apply} {ctx : Context}

def Raises (E : CompileError → Prop) (c : Compile α) : Prop :=
  ∀ t e, (c.runOn t).1 = .error e → E e

theorem raises_bind (hc : Raises E c) (hf : ∀ x, Raises E (f x)) : Raises E (c >>= f) := by
  intro t e he
  have hfirst := hc t
  rw [runOn_bind] at he
  cases hrun : c.runOn t with
  | mk result s =>
    rw [hrun] at hfirst he
    cases result with
    | error e' =>
      cases he
      exact hfirst _ rfl
    | ok x => exact hf x s e he

theorem Steady.raises (h : Steady c) : Raises E c := by
  induction h with
  | bind _ _ hc hf => exact raises_bind hc hf
  | _ => exact nofun

theorem raises_map (g : α → β) (hc : Raises E c) : Raises E (c >>= fun x => pure (g x)) :=
  raises_bind hc fun x => (Steady.pure (g x)).raises

theorem raises_lift_bind {x : Except CompileError α} (hx : ∀ e, x = .error e → E e)
    (hf : ∀ y, x = .ok y → Raises E (f y)) : Raises E (liftM x >>= f) := by
  cases x with
  | ok y => exact hf y rfl
  | error e' =>
    rintro t _ ⟨⟩
    exact hx e' rfl

def Raising (E : CompileError → Prop) (n : Nat) (apply : Apply) : Prop :=
  ∀ {ctx : Context} {d : Definition} {a : Address}, ctx.Raises E → d.All Definition.Proper →
    ctx.rank d < n → Raises E (dispatchWith apply ctx d a)

section
variable (happly : Raising E n apply) (hctx : ctx.Raises E)
include happly hctx

theorem raises_nodeWith (hd : d.All Definition.Proper) (hrank : ctx.rank d < n) :
    Raises E (nodeWith apply ctx d a) := by
  refine raises_bind (Steady.override? a).raises fun o => ?_
  rcases o with _ | _ | v
  · exact raises_map some (raises_bind (happly hctx hd hrank) fun v => (Steady.extend v _ _ a).raises)
  · exact (Steady.pure _).raises
  · exact (Steady.pure _).raises

theorem raises_fieldsWith (s : ObjectShape Definition) {properties : List (String × Definition)}
    (hd : ∀ e ∈ properties, e.2.All Definition.Proper ∧ ctx.rank e.2 < n) :
    Raises E (fieldsWith apply ctx s a properties) := by
  induction properties with
  | nil => exact (Steady.pure []).raises
  | cons e rest ih =>
    obtain ⟨key, d⟩ := e
    obtain ⟨hproper, hrank⟩ := hd (key, d) (List.mem_cons_self ..)
    have hrest := ih fun e he => hd e (List.mem_cons_of_mem _ he)
    rw [fieldsWith_cons]
    refine raises_bind (Steady.raises ?_) fun _ =>
      raises_bind (raises_nodeWith happly hctx hproper hrank) fun v => ?_
    · split
      · exact .requireNode _
      · exact .pure ()
    · cases v with
      | none => exact hrest
      | some v => exact raises_map _ hrest

theorem raises_objectWith {s : ObjectShape Definition} (hs : s ∈ d.shapes)
    (hd : d.All Definition.Proper) (hrank : ctx.rank d < n + 1) :
    Raises E (objectWith apply ctx s a) := by
  have hproperties : ∀ e ∈ s.properties, e.2.All Definition.Proper ∧ ctx.rank e.2 < n := by
    intro e he
    have hpart : e.2 ∈ d.parts :=
      Definition.mem_parts.mpr (.inl ⟨s, hs, List.mem_map_of_mem he⟩)
    have hlt := ctx.rank_lt_rank (Definition.weight_lt_of_mem_parts hpart)
    exact ⟨hd.inside hpart, by omega⟩
  rw [objectWith_eq]
  exact raises_bind (raises_fieldsWith happly hctx s hproperties) fun _ =>
    (Steady.bind (.optionsAt a) fun _ => .pure _).raises

theorem raises_arrayWith {s : ArrayShape Definition} (hd : (Definition.array s).All Definition.Proper)
    (hrank : ctx.rank (.array s) < n + 1) : Raises E (arrayWith apply ctx s a) := by
  have hpart : s.items ∈ (Definition.array s).parts :=
    Definition.mem_parts.mpr (.inr (List.mem_singleton_self s.items))
  have hlt := ctx.rank_lt_rank (Definition.weight_lt_of_mem_parts hpart)
  exact raises_map _ (raises_nodeWith happly hctx (hd.inside hpart) (by omega))

theorem raises_branchesWith (index : Nat) {refs : List String}
    (hrank : ∀ reference ∈ refs, ctx.rank (.ref { target := reference }) < n) :
    Raises E (branchesWith apply ctx (.node .ref) a index refs) := by
  induction refs generalizing index with
  | nil => exact (Steady.pure []).raises
  | cons reference rest ih =>
    have hproper : (Definition.ref { target := reference }).All Definition.Proper :=
      .intro ⟨nofun, nofun⟩ nofun
    have href := happly (a := a.branch index) hctx hproper (hrank reference (List.mem_cons_self ..))
    rw [← apply_ref_eq (require_ref hctx.registry)] at href
    have hrest := ih (index + 1) fun r hr => hrank r (List.mem_cons_of_mem _ hr)
    refine raises_bind (raises_bind (Steady.override? _).raises fun o => ?_) fun v => ?_
    · rcases o with _ | _ | v
      · exact raises_bind href fun v => raises_map some (Steady.extend v none none _).raises
      · exact (Steady.pure _).raises
      · exact (Steady.pure _).raises
    · cases v with
      | none => exact hrest
      | some v => exact raises_map _ hrest

theorem raises_unionWith {s : UnionShape} (hrank : ctx.rank (.union s) < n + 1) :
    Raises E (unionWith apply ctx s a) := by
  have hrequire : ctx.registry.require "ref" = .ok (.node .ref) := by
    rw [hctx.registry]
    rfl
  have hlt : ∀ reference ∈ s.refs, ctx.rank (.ref { target := reference }) < n := by
    intro reference _
    have hweight : (Definition.ref { target := reference }).weight < (Definition.union s).weight := by
      rw [Definition.weight_ref, Definition.weight_union]
      exact Nat.lt_succ_self 1
    have := ctx.rank_lt_rank hweight
    omega
  unfold unionWith
  rw [hrequire]
  exact raises_map _ (raises_branchesWith happly hctx 0 hlt)

theorem raises_targetWith {target : Definition} (hd : target.All Definition.Proper)
    (hrank : ∀ e : Definition, e.weight ≤ target.weight → ctx.rank e < n) :
    Raises E (targetWith apply ctx target a) := by
  have hself := happly (a := a) hctx hd (hrank target (Nat.le_refl _))
  cases target with
  | record s =>
    obtain ⟨description, key, body⟩ := s
    cases body with
    | none => exact (Steady.pure _).raises
    | some body =>
      have hmem : body ∈ (Definition.record ⟨description, key, some body⟩).shapes := by
        simp [Definition.shapes]
      have hweight : (Definition.object body).weight ≤
          (Definition.record ⟨description, key, some body⟩).weight := by
        rw [Definition.weight, Definition.weight, Definition.weightObject?]
      rw [targetWith_record_eq (.of_builtin hctx.registry)]
      exact raises_map _ (happly hctx (hd.shape hmem (hd.here.shape hmem)) (hrank _ hweight))
  | _ => exact raises_map _ hself

theorem raises_refWith {s : RefShape} (hrank : ctx.rank (.ref s) < n + 1) :
    Raises E (refWith apply ctx s a) := by
  unfold refWith
  split
  · rename_i hfollow
    refine raises_lift_bind
      (fun e he => hctx.references hfollow e (Context.ofReference_lookup he)) fun target htarget => ?_
    refine raises_lift_bind
      (fun e he => hctx.references hfollow e (Context.ofReference_follow? he)) fun inner hinner => ?_
    cases inner with
    | none => exact (Steady.pure _).raises
    | some inner =>
      obtain ⟨rfl, hscope⟩ := Context.follow?_eq_some hinner
      have hproper := hctx.proper _ _ (Context.definition?_of_lookup htarget)
      refine raises_targetWith happly (hctx.enter _) hproper fun e he => ?_
      have := Context.rank_enter_lt htarget hscope he (.ref s)
      omega
  · exact (Steady.pure _).raises

theorem raises_bodyWith (hd : d.All Definition.Proper) (hrank : ctx.rank d < n + 1) :
    Raises E (bodyWith apply ctx d a) := by
  cases d with
  | object s | params s =>
    exact raises_objectWith happly hctx (by simp [Definition.shapes]) hd hrank
  | array s => exact raises_arrayWith happly hctx hd hrank
  | union s => exact raises_unionWith happly hctx hrank
  | ref s => exact raises_refWith happly hctx hrank
  | string s => exact (Steady.string ctx s a).raises
  | blob s => exact (Steady.blob s a).raises
  | _ => exact (Steady.pure _).raises

end

/-- Only references fail, for every bound that the definition ranks below. -/
theorem raises_compileAt (n : Nat) : Raising E n (compileAt n) := by
  induction n with
  | zero => exact fun _ _ hrank => absurd hrank (Nat.not_lt_zero _)
  | succ n ih =>
    intro ctx d a hctx hd hrank
    rw [compileAt, dispatchWith_eq_bodyWith hctx.registry hd.here]
    exact raises_bodyWith ih hctx hd hrank

end Compile

/-- Under the built-in registry a node fails to compile only at a reference that is followed. -/
theorem Context.compileNode_error {ctx : Context} {d : Definition} {a : Address} {t : Tables}
    {e : CompileError} (hregistry : ctx.registry = .builtin)
    (hproper : ∀ r d, ctx.lexicons.definition? r = some d → d.All Definition.Proper)
    (hd : d.All Definition.Proper) (he : ((ctx.compileNode d a).runOn t).1 = .error e) :
    ctx.followRefs = true ∧ e.OfReference := by
  have hctx : ctx.Raises fun e => ctx.followRefs = true ∧ e.OfReference :=
    ⟨hregistry, hproper, fun hfollow _ => .intro hfollow⟩
  exact Compile.raises_nodeWith (Compile.raises_compileAt _) hctx hd (ctx.rank_lt_depth d) t e he

end Lexicon
