import Lexicon.Proofs.Compile.Builtin
import Lexicon.Proofs.Compile.Consults
import Lexicon.Proofs.Compile.Depth
import Lexicon.Proofs.References

/-!
# A compilation detects the cycles of its references

A compilation is followed along the walk that its nodes describe: with nothing omitted or replaced
it visits every reference, so it succeeds only where no reference comes back to the scope, and it
has no other reason to fail (`Detects`). The scope of the compilation is the list of definitions
that the walk carries. The induction is on the bound on nesting (`detects_compileAt`).
-/

namespace Lexicon

open Definition (innerNodes)

structure Tracks (ctx : Context) (dict : Dictionary) (here : Reference) : Prop where
  registry : ctx.registry = .builtin
  lexicons : ctx.lexicons = dict
  followRefs : ctx.followRefs = true
  cyclePolicy : ctx.cyclePolicy = .fail
  current : ctx.current? = some here
  proper : ∀ r d, dict.definition? r = some d → d.All Definition.Proper

section
variable {ctx : Context} {dict : Dictionary} {here target : Reference} {reference : String}
  {d : Definition}

theorem Tracks.qualify (h : Tracks ctx dict here) :
    ctx.qualify reference = here.resolve reference :=
  Context.qualify_of_current h.current reference

theorem Tracks.enter (h : Tracks ctx dict here) (r : Reference) : Tracks (ctx.enter r) dict r where
  registry := h.registry
  lexicons := h.lexicons
  followRefs := h.followRefs
  cyclePolicy := h.cyclePolicy
  current := rfl
  proper := h.proper

theorem Tracks.lookup (h : Tracks ctx dict here)
    (hd : dict.definition? (here.resolve reference) = some d) : ctx.lookup reference = .ok d := by
  obtain ⟨doc, hdoc, hd⟩ := Option.bind_eq_some_iff.mp hd
  simp only [Context.lookup, h.qualify, h.lexicons, hdoc, hd]

theorem Tracks.follow?_of_mem (h : Tracks ctx dict here) (hscope : target ∈ ctx.scope) :
    ctx.follow? target = .error (.cycle (ctx.scope.reverse ++ [target])) := by
  unfold Context.follow?
  rw [if_pos (by simpa using hscope), h.cyclePolicy]

end

structure Traversable (dict : Dictionary) (ctx : Context) (here : Reference) (n : Nat)
    (d : Definition) : Prop where
  proper : d.All Definition.Proper
  resolves : Resolves innerNodes dict here [d]
  rank : ctx.rank d < n

section
variable {dict : Dictionary} {ctx : Context} {here : Reference} {n : Nat} {d e : Definition}

theorem Traversable.inner (h : Traversable dict ctx here (n + 1) d) (he : e ∈ innerNodes d) :
    Traversable dict ctx here n e := by
  have hparts : e ∈ d.parts := by
    unfold innerNodes at he
    split at he
    · exact nomatch he
    · exact he
  have hrank : ctx.rank e < ctx.rank d :=
    Context.rank_lt_rank (Definition.weight_lt_of_mem_parts hparts)
  refine ⟨h.proper.inside hparts, h.resolves.mono fun t ht => ?_, by have := h.rank; omega⟩
  obtain ⟨c, hc, reference, hmentions, htarget⟩ := ht
  obtain rfl := List.mem_singleton.mp hc
  exact ⟨d, List.mem_singleton_self d, reference, .inner he hmentions, htarget⟩

/-- The facets of a definition can be followed under the bound that it is compiled under. -/
theorem Traversable.facet (hproper : d.All Definition.Proper)
    (hresolves : Resolves innerNodes dict here d.facets) (he : e ∈ d.facets) :
    Traversable dict ctx here (ctx.depth d) e := by
  have hself : Resolves innerNodes dict here [e] := hresolves.mono fun t ht => by
    obtain ⟨c, hc, hleads⟩ := ht
    obtain rfl := List.mem_singleton.mp hc
    exact ⟨c, he, hleads⟩
  have hrank : e.weight ≤ d.weight → ctx.rank e < ctx.depth d := fun hle =>
    Nat.lt_of_le_of_lt (Nat.add_le_add_left hle _) (ctx.rank_lt_depth d)
  rcases Definition.mem_facets he with rfl | ⟨s, hs, rfl⟩ | he
  · exact ⟨hproper, hself, hrank (Nat.le_refl _)⟩
  · have hle := Definition.weightObject_lt_of_mem_shapes hs
    refine ⟨hproper.shape hs (hproper.here.shape hs), hself, hrank ?_⟩
    rw [Definition.weight]
    omega
  · have hmem := Definition.mem_parts.mpr (.inr he)
    exact ⟨hproper.inside hmem, hself, hrank (Nat.le_of_lt (Definition.weight_lt_of_mem_nodes he))⟩

theorem Traversable.branch {s : UnionShape} (h : Traversable dict ctx here (n + 1) (.union s))
    {reference : String} (hmem : reference ∈ s.refs) :
    Traversable dict ctx here n (.ref { target := reference }) := by
  have hrank : ctx.rank (.ref { target := reference }) < ctx.rank (.union s) := by
    refine Context.rank_lt_rank ?_
    rw [Definition.weight_ref, Definition.weight_union]
    exact Nat.lt_succ_self 1
  refine ⟨.intro ⟨nofun, nofun⟩ nofun, h.resolves.mono fun t ht => ?_, by have := h.rank; omega⟩
  obtain ⟨e, he, hleads⟩ := ht
  obtain rfl := List.mem_singleton.mp he
  exact leads_union.mpr ⟨_, List.mem_map_of_mem hmem, hleads⟩

end

namespace Compile

variable {α β : Type} {c : Compile α} {f : α → Compile β} {P Q : List Reference → Prop}
  {a : Address} {d : Definition}

def Unreplaced (t : Tables) : Prop := ∀ q, t.options.override? q = none

/-- The compilation fails where there is such a cycle, and reports one. It has no other errors. -/
def Detects (P : List Reference → Prop) (c : Compile α) : Prop :=
  ∀ t, Unreplaced t → Unreplaced (c.runOn t).2 ∧
    match (c.runOn t).1 with
    | .ok _ => ∀ path, ¬ P path
    | .error e => ∃ path, e = .cycle path ∧ P path

theorem Detects.congr (h : Detects P c) (hPQ : ∀ path, Q path ↔ P path) : Detects Q c := by
  obtain rfl : Q = P := funext fun path => propext (hPQ path)
  exact h

theorem detects_bind (hc : Detects P c) (hf : ∀ x, Detects Q (f x)) :
    Detects (fun path => P path ∨ Q path) (c >>= f) := by
  intro t ht
  obtain ⟨hafter, hfirst⟩ := hc t ht
  rw [runOn_bind]
  cases hrun : c.runOn t with
  | mk result s =>
    rw [hrun] at hafter hfirst
    cases result with
    | error e =>
      obtain ⟨path, he, hpath⟩ := hfirst
      exact ⟨hafter, path, he, .inl hpath⟩
    | ok x =>
      obtain ⟨hend, hsecond⟩ := hf x s hafter
      refine ⟨hend, ?_⟩
      dsimp only
      cases hresult : ((f x).runOn s).1 with
      | error e =>
        rw [hresult] at hsecond
        obtain ⟨path, he, hpath⟩ := hsecond
        exact ⟨path, he, .inr hpath⟩
      | ok y =>
        rw [hresult] at hsecond
        exact fun path hpath => hpath.elim (hfirst path) (hsecond path)

theorem detects_cycle {path : List Reference} (h : P path) :
    Detects P (throw (.cycle path) : Compile α) :=
  fun _ ht => ⟨ht, path, rfl, h⟩

/-- What cannot fail detects what is not there. -/
theorem Steady.detects (h : Steady c) (hP : ∀ path, ¬ P path) : Detects P c := by
  have hnone : Detects (fun _ => False) c := by
    induction h with
    | pure _ | optionsAt _ | recordMetadata _ _ => exact fun t ht => ⟨ht, fun _ => id⟩
    | bind _ _ hc hf => exact (detects_bind hc hf).congr fun _ => or_self_iff.symm
    | markRequired a =>
      exact fun t ht => ⟨fun q => (getD_markRequired t.options a q).2.trans (ht q), fun _ => id⟩
  exact hnone.congr fun path => iff_false_intro (hP path)

theorem detects_after (hc : Steady c) (hf : ∀ x, Detects P (f x)) : Detects P (c >>= f) :=
  (detects_bind (hc.detects fun _ => not_false) hf).congr fun _ => (iff_of_eq (false_or _)).symm

theorem detects_then (hc : Detects P c) (hf : ∀ x, Steady (f x)) : Detects P (c >>= f) :=
  (detects_bind hc fun x => (hf x).detects fun _ => not_false).congr fun _ =>
    (iff_of_eq (or_false _)).symm

theorem detects_map (g : α → β) (hc : Detects P c) :
    Detects P (c >>= fun x => pure (g x)) :=
  detects_then hc fun x => .pure (g x)

/-- A node is compiled, since nothing stands in its place. -/
theorem detects_override {f : Option Override → Compile β} (hf : Detects P (f none)) :
    Detects P (override? a >>= f) := by
  intro t ht
  rw [runOn_bind_of_ok (runOn_override? a), ht]
  exact hf t ht

def Detecting (dict : Dictionary) (n : Nat) (apply : Apply) : Prop :=
  ∀ {ctx : Context} {here : Reference} {d : Definition} {a : Address}, Tracks ctx dict here →
    Traversable dict ctx here n d →
    Detects (Meets innerNodes dict ctx.scope here [d]) (dispatchWith apply ctx d a)

section
variable {dict : Dictionary} {n : Nat} {apply : Apply} {ctx : Context} {here : Reference}
  (happly : Detecting dict n apply) (htracks : Tracks ctx dict here)
include happly htracks

theorem detects_extendedWith (hd : Traversable dict ctx here n d) :
    Detects (Meets innerNodes dict ctx.scope here [d]) (extendedWith apply ctx d a) :=
  detects_then (happly htracks hd) fun v => .extend v _ _ a

theorem detects_nodeWith (hd : Traversable dict ctx here n d) :
    Detects (Meets innerNodes dict ctx.scope here [d]) (nodeWith apply ctx d a) :=
  detects_override (detects_map some (detects_extendedWith happly htracks hd))

theorem detects_fieldsWith (s : ObjectShape Definition) {properties : List (String × Definition)}
    (hd : ∀ e ∈ properties, Traversable dict ctx here n e.2) :
    Detects (Meets innerNodes dict ctx.scope here (properties.map Prod.snd))
      (fieldsWith apply ctx s a properties) := by
  induction properties with
  | nil => exact (Steady.pure []).detects fun _ => not_meets_nil
  | cons e rest ih =>
    obtain ⟨key, d⟩ := e
    have hnode := detects_nodeWith (a := a.property key) happly htracks
      (hd (key, d) (List.mem_cons_self ..))
    have hrest := ih fun e he => hd e (List.mem_cons_of_mem _ he)
    rw [fieldsWith_cons]
    refine detects_after ?_ fun _ =>
      (detects_bind hnode fun v => ?_).congr fun _ => meets_cons
    · split
      · exact .requireNode _
      · exact .pure ()
    · cases v with
      | none => exact hrest
      | some v => exact detects_map _ hrest

theorem detects_objectWith {s : ObjectShape Definition} (hs : d = .object s ∨ d = .params s)
    (hd : Traversable dict ctx here (n + 1) d) :
    Detects (Meets innerNodes dict ctx.scope here [d]) (objectWith apply ctx s a) := by
  have hown : d.ownReferences = [] := by rcases hs with rfl | rfl <;> rfl
  have hinner : innerNodes d = s.parts := by
    rcases hs with rfl | rfl <;>
      simp [innerNodes, Definition.isPrimary, Definition.parts, Definition.shapes, Definition.nodes]
  have hparts : ∀ e ∈ s.properties, Traversable dict ctx here n e.2 := fun e he => by
    refine hd.inner ?_
    rw [hinner]
    exact List.mem_map_of_mem he
  refine Detects.congr ?_ fun _ => meets_congr fun _ => leads_inside hown
  rw [hinner, objectWith_eq]
  exact detects_then (detects_fieldsWith happly htracks s hparts) fun fields =>
    .bind (.optionsAt a) fun o => .pure _

theorem detects_arrayWith {s : ArrayShape Definition}
    (hd : Traversable dict ctx here (n + 1) (.array s)) :
    Detects (Meets innerNodes dict ctx.scope here [.array s]) (arrayWith apply ctx s a) := by
  have hitems : Traversable dict ctx here n s.items := hd.inner (List.mem_singleton_self s.items)
  have hnode := detects_nodeWith (a := a.element) happly htracks hitems
  exact (detects_map _ hnode).congr fun _ => meets_congr fun _ => leads_inside rfl

theorem detects_branchWith {reference : String}
    (hd : Traversable dict ctx here n (.ref { target := reference })) :
    Detects (Meets innerNodes dict ctx.scope here [.ref { target := reference }])
      (branchWith apply ctx (.node .ref) reference a) := by
  refine detects_override (detects_then ?_ fun v => ?_)
  · rw [@apply_ref_eq apply _ _ (require_ref htracks.registry)]
    exact happly htracks hd
  · exact .bind (.extend v none none a) fun _ => .pure _

theorem detects_branchesWith (index : Nat) {refs : List String}
    (hd : ∀ reference ∈ refs, Traversable dict ctx here n (.ref { target := reference })) :
    Detects
      (Meets innerNodes dict ctx.scope here (refs.map fun reference => .ref { target := reference }))
      (branchesWith apply ctx (.node .ref) a index refs) := by
  induction refs generalizing index with
  | nil => exact (Steady.pure []).detects fun _ => not_meets_nil
  | cons reference rest ih =>
    have hbranch := detects_branchWith (a := a.branch index) happly htracks
      (hd reference (List.mem_cons_self ..))
    have hrest := ih (index + 1) fun r hr => hd r (List.mem_cons_of_mem _ hr)
    refine (detects_bind hbranch fun v => ?_).congr fun _ => meets_cons
    cases v with
    | none => exact hrest
    | some v => exact detects_map _ hrest

theorem detects_unionWith {s : UnionShape} (hd : Traversable dict ctx here (n + 1) (.union s)) :
    Detects (Meets innerNodes dict ctx.scope here [.union s]) (unionWith apply ctx s a) := by
  have hrequire : ctx.registry.require "ref" = .ok (.node .ref) := by
    rw [htracks.registry]
    rfl
  unfold unionWith
  rw [hrequire]
  refine (detects_map _ ?_).congr fun _ => meets_congr fun _ => leads_union
  exact detects_branchesWith happly htracks 0 fun reference hmem => hd.branch hmem

/-- A definition that is entered is compiled as what a reference to it stands for. -/
theorem detects_targetWith {target : Definition} (hproper : target.All Definition.Proper)
    (hresolves : Resolves innerNodes dict here target.referent)
    (hrank : ∀ e : Definition, e.weight ≤ target.weight → ctx.rank e < n) :
    Detects (Meets innerNodes dict ctx.scope here target.referent)
      (targetWith apply ctx target a) := by
  have hself : (∀ s, target ≠ .record s) →
      Detects (Meets innerNodes dict ctx.scope here target.referent)
        (dispatchWith apply ctx target a) := by
    intro hrecord
    refine (happly htracks ⟨hproper, ?_, hrank target (Nat.le_refl _)⟩).congr fun _ =>
      meets_congr fun _ => (leads_referent hrecord).symm
    exact hresolves.mono fun _ => (leads_referent hrecord).mp
  cases target with
  | record s =>
    obtain ⟨description, key, body⟩ := s
    cases body with
    | none => exact (Steady.pure _).detects fun _ => not_meets_nil
    | some body =>
      have hmem : body ∈ (Definition.record ⟨description, key, some body⟩).shapes := by
        simp [Definition.shapes]
      have hweight : (Definition.object body).weight ≤
          (Definition.record ⟨description, key, some body⟩).weight := by
        rw [Definition.weight, Definition.weight, Definition.weightObject?]
      rw [targetWith_record_eq (.of_builtin htracks.registry)]
      exact detects_map _ (happly htracks
        ⟨hproper.shape hmem (hproper.here.shape hmem), hresolves, hrank _ hweight⟩)
  | _ => exact detects_map _ (hself (by simp))

theorem detects_refWith {s : RefShape} (hd : Traversable dict ctx here (n + 1) (.ref s)) :
    Detects (Meets innerNodes dict ctx.scope here [.ref s]) (refWith apply ctx s a) := by
  obtain ⟨target, htarget, hresolves⟩ := hd.resolves.follow ((leads_ref rfl).mpr rfl)
  have hlookup := htracks.lookup htarget
  unfold refWith
  rw [if_pos htracks.followRefs, hlookup, htracks.qualify]
  refine Detects.congr ?_ fun _ => meets_ref
  -- A target in the scope closes a cycle, and any other one is entered with the scope of the walk.
  by_cases hscope : here.resolve s.target ∈ ctx.scope
  · rw [htracks.follow?_of_mem hscope]
    exact detects_cycle (.back hscope)
  · rw [Context.follow?_of_not_mem hscope]
    refine Detects.congr ?_ fun _ => closes_iff_of_not_mem hscope htarget
    refine detects_targetWith happly (htracks.enter _) (htracks.proper _ _ htarget) hresolves ?_
    intro e he
    have hrank := hd.rank
    have hlt := Context.rank_enter_lt hlookup (htracks.qualify ▸ hscope) he (.ref s)
    rw [htracks.qualify] at hlt
    omega

theorem detects_bodyWith (hd : Traversable dict ctx here (n + 1) d) :
    Detects (Meets innerNodes dict ctx.scope here [d]) (bodyWith apply ctx d a) := by
  cases d with
  | object s | params s => exact detects_objectWith happly htracks (by simp) hd
  | array s => exact detects_arrayWith happly htracks hd
  | union s => exact detects_unionWith happly htracks hd
  | ref s => exact detects_refWith happly htracks hd
  | string s => exact (Steady.string ctx s a).detects fun _ => not_meets_of_bare rfl rfl
  | blob s => exact (Steady.blob s a).detects fun _ => not_meets_of_bare rfl rfl
  | _ => exact (Steady.pure _).detects fun _ => not_meets_of_bare rfl rfl

end

theorem detects_compileAt (dict : Dictionary) (n : Nat) : Detecting dict n (compileAt n) := by
  induction n with
  | zero => exact fun _ hd => absurd hd.rank (Nat.not_lt_zero _)
  | succ n ih =>
    intro ctx here d a htracks hd
    rw [compileAt, dispatchWith_eq_bodyWith htracks.registry hd.proper.here]
    exact detects_bodyWith ih htracks hd

section
variable {dict : Dictionary} {n : Nat} {apply : Apply} {ctx : Context} {here : Reference}
  (happly : Detecting dict n apply) (htracks : Tracks ctx dict here)
include happly htracks

theorem detects_objectFacetWith (shape : Option (ObjectShape Definition)) (a : Address)
    (hd : ∀ s ∈ shape, Traversable dict ctx here n (.object s)) :
    Detects (Meets innerNodes dict ctx.scope here (shape.toList.map .object))
      (objectFacetWith apply ctx shape a) := by
  cases shape with
  | none => exact (Steady.pure _).detects fun _ => not_meets_nil
  | some s =>
    rw [objectFacetWith_eq (.of_builtin htracks.registry)]
    refine detects_override (detects_after (.markRequired a) fun _ => ?_)
    exact detects_then (happly htracks (hd s rfl)) fun v => .extend v _ _ a

theorem detects_schemaFacetWith (schema : Option Definition) (a : Address)
    (hd : ∀ d ∈ schema, Traversable dict ctx here n d) :
    Detects (Meets innerNodes dict ctx.scope here schema.toList)
      (schemaFacetWith apply ctx schema a) := by
  cases schema with
  | none => exact (Steady.pure _).detects fun _ => not_meets_nil
  | some d =>
    exact detects_after (.requireNode a) fun _ =>
      detects_map _ (detects_nodeWith happly htracks (hd d rfl))

theorem detects_bodyFacetsWith (body : Option (Body Definition)) (a : Address)
    (hd : ∀ d ∈ body.bind Body.schema, Traversable dict ctx here n d) :
    Detects (Meets innerNodes dict ctx.scope here (body.bind Body.schema).toList)
      (bodyFacetsWith apply ctx body a) := by
  cases body with
  | none => exact (Steady.pure _).detects fun _ => not_meets_nil
  | some b => exact detects_map _ (detects_schemaFacetWith happly htracks b.schema _ hd)

/-- The facets of a primary definition are compiled one after the other. -/
theorem detects_primary (hprimary : d.isPrimary = true)
    (hshapes : ∀ s ∈ d.shapes, Traversable dict ctx here n (.object s))
    (hnodes : ∀ e ∈ d.nodes, Traversable dict ctx here n e) :
    Detects (Meets innerNodes dict ctx.scope here (d.shapes.map .object ++ d.nodes))
      (definitionWith apply ctx d a) := by
  have hobject : ∀ (shape : Option (ObjectShape Definition)) (b : Address),
      (∀ s ∈ shape.toList, s ∈ d.shapes) →
      Detects (Meets innerNodes dict ctx.scope here (shape.toList.map .object))
        (objectFacetWith apply ctx shape b) := fun shape b hmem =>
    detects_objectFacetWith happly htracks shape b fun s hs =>
      hshapes s (hmem s (Option.mem_toList.mpr hs))
  have hbody : ∀ (body : Option (Body Definition)) (b : Address),
      (∀ e ∈ (body.bind Body.schema).toList, e ∈ d.nodes) →
      Detects (Meets innerNodes dict ctx.scope here (body.bind Body.schema).toList)
        (bodyFacetsWith apply ctx body b) := fun body b hmem =>
    detects_bodyFacetsWith happly htracks body b fun e he =>
      hnodes e (hmem e (Option.mem_toList.mpr he))
  cases d with
  | record s =>
    simp only [definitionWith, envelopeWith, bind_assoc, pure_bind]
    have hfacets : (Definition.record s).shapes.map Definition.object ++
        (Definition.record s).nodes = s.record.toList.map .object := List.append_nil _
    rw [hfacets]
    exact detects_map _ (hobject s.record _ fun _ => id)
  | query s =>
    simp only [definitionWith, envelopeWith, bind_assoc, pure_bind]
    exact (detects_bind (hobject s.parameters _ fun _ => id) fun _ =>
      detects_map _ (hbody s.output _ fun _ => id)).congr fun _ => meets_append
  | procedure s =>
    simp only [definitionWith, envelopeWith, bind_assoc, pure_bind]
    refine (detects_bind (hobject s.parameters _ fun _ => id) fun parameters => ?_).congr
      fun _ => meets_append
    refine (detects_bind (hbody s.input _ fun _ => List.mem_append_left _) fun input => ?_).congr
      fun _ => meets_append
    exact detects_map _ (hbody s.output _ fun _ => List.mem_append_right _)
  | subscription s =>
    have hmessage := detects_schemaFacetWith happly htracks (s.message.bind Message.schema)
      ((a.property "message").property "schema") fun e he => hnodes e (Option.mem_toList.mpr he)
    simp only [definitionWith, envelopeWith, bind_assoc, pure_bind]
    exact (detects_bind (hobject s.parameters _ fun _ => id) fun _ =>
      detects_map _ hmessage).congr fun _ => meets_append
  | _ => exact absurd hprimary Bool.false_ne_true

theorem detects_definitionWith (hd : ∀ e ∈ d.facets, Traversable dict ctx here n e) :
    Detects (Meets innerNodes dict ctx.scope here d.facets) (definitionWith apply ctx d a) := by
  unfold Definition.facets at hd ⊢
  split
  · rename_i hprimary
    rw [if_pos hprimary] at hd
    refine detects_primary happly htracks hprimary (fun s hs => hd _ ?_) fun e he => hd e ?_
    · exact List.mem_append_left _ (List.mem_map_of_mem hs)
    · exact List.mem_append_right _ he
  · rename_i hprimary
    rw [if_neg hprimary] at hd
    rw [definitionWith_of_not_primary _ _ (by simpa using hprimary)]
    exact detects_map _ (detects_extendedWith happly htracks (hd d (List.mem_singleton_self d)))

end

/-- The definitions of a document are compiled one after the other, each with no other under way. -/
theorem detects_definitions {dict : Dictionary} {ctx : Context} {nsid : String}
    {defs : List (String × Definition)}
    (htracks : ∀ name, Tracks (ctx.enter ⟨nsid, name⟩) dict ⟨nsid, name⟩)
    (hproper : ∀ e ∈ defs, e.2.All Definition.Proper)
    (hresolves : ∀ e ∈ defs, Resolves innerNodes dict ⟨nsid, e.1⟩ e.2.facets) :
    Detects
      (fun path => ∃ e ∈ defs,
        Meets innerNodes dict (⟨nsid, e.1⟩ :: ctx.scope) ⟨nsid, e.1⟩ e.2.facets path)
      (definitions ctx nsid defs) := by
  induction defs with
  | nil => exact (Steady.pure []).detects (by simp)
  | cons e rest ih =>
    obtain ⟨name, d⟩ := e
    have hrest := ih (fun e he => hproper e (List.mem_cons_of_mem _ he))
      fun e he => hresolves e (List.mem_cons_of_mem _ he)
    have hdefinition := @detects_definitionWith name d dict _ _ (ctx.enter ⟨nsid, name⟩) _
      (detects_compileAt dict _) (htracks name) fun e he =>
        .facet (hproper (name, d) (List.mem_cons_self ..))
          (hresolves (name, d) (List.mem_cons_self ..)) he
    rw [definitions]
    refine detects_override ?_
    refine (detects_bind hdefinition fun c => detects_map _ hrest).congr fun path => ?_
    simp only [List.mem_cons, exists_eq_or_imp]
    rfl

end Compile
end Lexicon
