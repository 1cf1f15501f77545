import Lexicon.Compile.Document
import Lexicon.Proofs.Compile.Run
import Lexicon.Proofs.Definition.Weight

/-!
# The bound on nesting is never met

`Context.rank` counts what a compilation can still reach: every definition of the dictionary that is
not in the scope, and the nodes of the definition at hand. It falls with every nested compilation,
so `compileAt` gives the same for every bound above it (`compileAt_eq_of_rank_lt`). `unbounded`
compiles with a bound that suffices, and it satisfies the equation of the recursion without a bound
(`unbounded_eq`). Top-level definitions are compiled with it (`definitionWith_compileAt`).
-/

namespace Lexicon

namespace Dictionary

theorem mem_references_of_definition? {dict : Dictionary} {r : Reference} {d : Definition}
    (h : dict.definition? r = some d) : r ∈ dict.references := by
  obtain ⟨doc, hdoc, hd⟩ := Option.bind_eq_some_iff.mp h
  refine List.mem_flatMap.mpr ⟨_, Entries.mem_of_find? hdoc, ?_⟩
  exact List.mem_map.mpr ⟨_, Entries.mem_of_find? hd, rfl⟩

theorem weight_le_of_mem {dict : Dictionary} {e : String × Document} (he : e ∈ dict) :
    e.2.weight ≤ dict.weight := by
  induction dict with
  | nil => simp at he
  | cons f rest ih =>
    have hcons : weight (f :: rest) = f.2.weight + weight rest := rfl
    rcases List.mem_cons.mp he with rfl | he
    · omega
    · have := ih he
      omega

theorem weight_le_of_definition? {dict : Dictionary} {r : Reference} {d : Definition}
    (h : dict.definition? r = some d) : d.weight ≤ dict.weight := by
  obtain ⟨doc, hdoc, hd⟩ := Option.bind_eq_some_iff.mp h
  have hdoc := weight_le_of_mem (Entries.mem_of_find? hdoc)
  have hd := Definition.weight_le_weightProperties
    (List.mem_map_of_mem (f := Prod.snd) (Entries.mem_of_find? hd))
  exact Nat.le_trans hd hdoc

end Dictionary

namespace Context

variable {ctx : Context} {d e : Definition} {reference : String}

/-- The number of definitions that references can still lead to. -/
def unvisited (ctx : Context) : Nat :=
  (ctx.lexicons.references.filter fun r => !ctx.scope.contains r).length

def rank (ctx : Context) (d : Definition) : Nat :=
  ctx.unvisited * (ctx.lexicons.weight + 1) + d.weight

theorem rank_lt_depth (ctx : Context) (d : Definition) : ctx.rank d < ctx.depth d := by
  have hle : ctx.unvisited ≤ ctx.lexicons.references.length := List.length_filter_le ..
  have := Nat.mul_le_mul_right (ctx.lexicons.weight + 1) hle
  unfold rank depth
  omega

theorem rank_lt_rank (h : d.weight < e.weight) : ctx.rank d < ctx.rank e :=
  Nat.add_lt_add_left h _

theorem definition?_of_lookup (h : ctx.lookup reference = .ok d) :
    ctx.lexicons.definition? (ctx.qualify reference) = some d := by
  simp only [lookup] at h
  split at h
  · exact nomatch h
  · rename_i doc hdoc
    split at h
    · exact nomatch h
    · rename_i e he
      obtain rfl := Except.ok.inj h
      exact Option.bind_eq_some_iff.mpr ⟨doc, hdoc, he⟩

theorem follow?_eq_some {target : Reference} {inner : Context}
    (h : ctx.follow? target = .ok (some inner)) : inner = ctx.enter target ∧ target ∉ ctx.scope := by
  unfold follow? at h
  split at h
  · split at h
    · cases h
    · cases h
  · rename_i hscope
    cases h
    exact ⟨rfl, by simpa using hscope⟩

theorem follow?_of_not_mem {target : Reference} (hscope : target ∉ ctx.scope) :
    ctx.follow? target = .ok (some (ctx.enter target)) := by
  unfold follow?
  rw [if_neg (by simpa using hscope)]

theorem unvisited_enter_lt {r : Reference} (hr : r ∈ ctx.lexicons.references)
    (hscope : r ∉ ctx.scope) : (ctx.enter r).unvisited < ctx.unvisited := by
  unfold unvisited
  have hsub : (ctx.lexicons.references.filter fun s => !(ctx.enter r).scope.contains s) =
      (ctx.lexicons.references.filter fun s => !ctx.scope.contains s).filter (· != r) := by
    rw [List.filter_filter]
    refine List.filter_congr fun s _ => ?_
    simp [enter, bne, Bool.beq_eq_decide_eq]
  have hmem : r ∈ ctx.lexicons.references.filter fun s => !ctx.scope.contains s := by
    simp [hr, hscope]
  change (ctx.lexicons.references.filter fun s => !(ctx.enter r).scope.contains s).length < _
  rw [hsub]
  exact List.length_filter_lt_length_iff_exists.mpr ⟨r, hmem, by simp⟩

/-- What a reference leads to ranks below everything that can hold the reference. -/
theorem rank_enter_lt (h : ctx.lookup reference = .ok d) (hscope : ctx.qualify reference ∉ ctx.scope)
    (he : e.weight ≤ d.weight) (d' : Definition) :
    (ctx.enter (ctx.qualify reference)).rank e < ctx.rank d' := by
  have hd := definition?_of_lookup h
  have hlt := unvisited_enter_lt (Dictionary.mem_references_of_definition? hd) hscope
  have hle := Dictionary.weight_le_of_definition? hd
  have hmul := Nat.mul_le_mul_right (ctx.lexicons.weight + 1) (Nat.succ_le_of_lt hlt)
  rw [Nat.succ_mul] at hmul
  unfold rank
  change (ctx.enter (ctx.qualify reference)).unvisited * (ctx.lexicons.weight + 1) + e.weight < _
  omega

end Context

namespace Compile

variable {f g : Apply} {ctx : Context} {d : Definition} {a : Address}

def AgreeBelow (f g : Apply) (n : Nat) : Prop :=
  ∀ compiler ctx d a, ctx.rank d < n → f compiler ctx d a = g compiler ctx d a

theorem view_bind_congr {σ β : Type} {held : Option σ}
    {read : Entries Json → Except Mismatch σ} {k k' : σ → Compile β}
    (hheld : ∀ s, held = some s → k s = k' s)
    (hread : held = none → ∀ s, d.reread read = .ok s → k s = k' s) :
    (view held read d a >>= k) = view held read d a >>= k' := by
  cases held with
  | some s => exact hheld s rfl
  | none =>
    refine lift_bind_congr fun s hs => hread rfl s ?_
    exact mapError_eq_ok.mp hs

theorem dispatchWith_congr (h : ∀ compiler, f compiler ctx d a = g compiler ctx d a) :
    dispatchWith f ctx d a = dispatchWith g ctx d a :=
  lift_bind_congr fun compiler _ => h compiler

theorem extendedWith_congr (h : ∀ compiler, f compiler ctx d a = g compiler ctx d a) :
    extendedWith f ctx d a = extendedWith g ctx d a := by
  unfold extendedWith
  rw [dispatchWith_congr h]

theorem nodeWith_congr (h : ∀ compiler, f compiler ctx d a = g compiler ctx d a) :
    nodeWith f ctx d a = nodeWith g ctx d a := by
  unfold nodeWith
  rw [extendedWith_congr h]

theorem fieldsWith_congr (s : ObjectShape Definition) {properties : List (String × Definition)}
    (h : ∀ e ∈ properties.map Prod.snd, ∀ compiler a, f compiler ctx e a = g compiler ctx e a) :
    fieldsWith f ctx s a properties = fieldsWith g ctx s a properties := by
  induction properties with
  | nil => rfl
  | cons p rest ih =>
    have hrest := ih fun e he => h e (List.mem_cons_of_mem _ he)
    have hnode := nodeWith_congr fun compiler =>
      h p.2 (List.mem_cons_self ..) compiler (a.property p.1)
    rw [fieldsWith, fieldsWith, hrest, hnode]

theorem objectWith_congr (s : ObjectShape Definition)
    (h : ∀ e ∈ s.parts, ∀ compiler a, f compiler ctx e a = g compiler ctx e a) :
    objectWith f ctx s a = objectWith g ctx s a := by
  unfold objectWith
  rw [fieldsWith_congr s h]

theorem arrayWith_congr (s : ArrayShape Definition)
    (h : ∀ compiler a, f compiler ctx s.items a = g compiler ctx s.items a) :
    arrayWith f ctx s a = arrayWith g ctx s a := by
  unfold arrayWith
  rw [nodeWith_congr fun compiler => h compiler a.element]

theorem branchesWith_congr {refs : List String} (compiler : TypeCompiler) (index : Nat)
    (h : ∀ reference ∈ refs, ∀ a, f compiler ctx (.ref { target := reference }) a =
      g compiler ctx (.ref { target := reference }) a) :
    branchesWith f ctx compiler a index refs = branchesWith g ctx compiler a index refs := by
  induction refs generalizing index with
  | nil => rfl
  | cons reference rest ih =>
    have hrest := ih (index + 1) fun r hr => h r (List.mem_cons_of_mem _ hr)
    have hbranch : branchWith f ctx compiler reference (a.branch index) =
        branchWith g ctx compiler reference (a.branch index) := by
      unfold branchWith
      rw [h reference (List.mem_cons_self ..)]
    rw [branchesWith, branchesWith, hbranch, hrest]

theorem unionWith_congr (s : UnionShape)
    (h : ∀ reference ∈ s.refs, ∀ compiler a, f compiler ctx (.ref { target := reference }) a =
      g compiler ctx (.ref { target := reference }) a) :
    unionWith f ctx s a = unionWith g ctx s a := by
  refine lift_bind_congr fun compiler _ => ?_
  rw [branchesWith_congr compiler 0 fun reference hr => h reference hr compiler]

theorem targetWith_congr (target : Definition)
    (h : ∀ e : Definition, e.weight ≤ target.weight → ∀ compiler,
      f compiler ctx e a = g compiler ctx e a) :
    targetWith f ctx target a = targetWith g ctx target a := by
  have hself := dispatchWith_congr (h target (Nat.le_refl _))
  cases target with
  | record s =>
    obtain ⟨description, key, body⟩ := s
    cases body with
    | none => rfl
    | some s =>
      refine lift_bind_congr fun compiler _ => ?_
      have hle : (Definition.object s).weight ≤
          (Definition.record ⟨description, key, some s⟩).weight := by
        refine Nat.le_of_eq ?_
        rw [Definition.weight, Definition.weight, Definition.weightObject?]
      rw [h (.object s) hle]
  | _ => simp only [targetWith, hself]

theorem refWith_congr (s : RefShape) {n : Nat} (h : AgreeBelow f g n) (hn : ctx.rank d ≤ n) :
    refWith f ctx s a = refWith g ctx s a := by
  unfold refWith
  split
  · refine lift_bind_congr fun target htarget => lift_bind_congr fun inner hinner => ?_
    cases inner with
    | none => rfl
    | some inner =>
      obtain ⟨rfl, hscope⟩ := Context.follow?_eq_some hinner
      refine targetWith_congr target fun e he compiler => h _ _ _ _ ?_
      exact Nat.lt_of_lt_of_le (Context.rank_enter_lt htarget hscope he d) hn
  · rfl

theorem typedWith_congr (h : AgreeBelow f g (ctx.rank d)) (type : NodeType) :
    typedWith f ctx type d a = typedWith g ctx type d a := by
  have hlt : ∀ e : Definition, e.weight < d.weight → ∀ compiler a,
      f compiler ctx e a = g compiler ctx e a :=
    fun e he compiler a => h compiler ctx e a (Context.rank_lt_rank he)
  cases type with
  | array =>
    refine view_bind_congr (fun s hs => arrayWith_congr s (hlt _ ?_))
      fun hnone s hs => arrayWith_congr s (hlt _ ?_)
    · cases d with
      | array t =>
        obtain rfl := Option.some.inj hs
        exact Definition.weight_lt_of_mem_nodes (by simp [Definition.nodes])
      | _ => cases hs
    · refine Definition.weight_lt_of_reread_array hs ?_
      rintro ⟨t, rfl⟩
      cases hnone
  | object =>
    refine view_bind_congr (fun s hs => objectWith_congr s fun e he => hlt e ?_)
      fun hnone s hs => objectWith_congr s fun e he => hlt e ?_
    · cases d with
      | object t | params t =>
        obtain rfl := Option.some.inj hs
        exact Definition.weight_lt_of_mem_parts
          (Definition.mem_parts.mpr (.inl ⟨_, by simp [Definition.shapes], he⟩))
      | _ => cases hs
    · refine Definition.weight_lt_of_reread_object hs ?_ he
      rintro ⟨t, rfl | rfl⟩
      · cases hnone
      · cases hnone
  | union =>
    refine view_bind_congr (fun s hs => unionWith_congr s fun reference _ => hlt _ ?_)
      fun hnone s hs => unionWith_congr s fun reference hr => hlt _ ?_
    · cases d with
      | union t =>
        rw [Definition.weight_ref, Definition.weight_union]
        exact Nat.lt_succ_self 1
      | _ => cases hs
    · rw [Definition.weight_ref]
      refine Definition.one_lt_weight_of_reread_union hs ?_ (List.ne_nil_of_mem hr)
      rintro ⟨t, rfl⟩
      cases hnone
  | ref =>
    exact view_bind_congr (fun s _ => refWith_congr s h (Nat.le_refl _))
      fun _ s _ => refWith_congr s h (Nat.le_refl _)
  | _ => rfl

/-- One step of the recursion asks only for what ranks below the definition at hand. -/
theorem applyWith_congr (h : AgreeBelow f g (ctx.rank d)) (compiler : TypeCompiler) :
    applyWith f compiler ctx d a = applyWith g compiler ctx d a := by
  cases compiler with
  | node type => exact typedWith_congr h type
  | _ => rfl

theorem compileAt_eq_of_rank_lt {n m : Nat} (hn : ctx.rank d < n) (hm : ctx.rank d < m)
    (compiler : TypeCompiler) : compileAt n compiler ctx d a = compileAt m compiler ctx d a := by
  induction n generalizing m compiler ctx d a with
  | zero => omega
  | succ n ih =>
    cases m with
    | zero => omega
    | succ m =>
      refine applyWith_congr (fun compiler' ctx' d' a' hlt => ?_) compiler
      exact ih (by omega) (by omega) compiler'

/-- Compiles a definition without a bound on how deep its nodes nest. -/
def unbounded : Apply := fun compiler ctx d a => ctx.apply d a compiler

theorem compileAt_eq_unbounded {n : Nat} (hn : ctx.rank d < n) (compiler : TypeCompiler) :
    compileAt n compiler ctx d a = unbounded compiler ctx d a :=
  compileAt_eq_of_rank_lt hn (ctx.rank_lt_depth d) compiler

/-- The equation of the recursion. -/
theorem unbounded_eq (compiler : TypeCompiler) (ctx : Context) (d : Definition) (a : Address) :
    unbounded compiler ctx d a = applyWith unbounded compiler ctx d a := by
  have hrank := ctx.rank_lt_depth d
  unfold unbounded Context.apply
  obtain ⟨n, hn⟩ : ∃ n, ctx.depth d = n + 1 := ⟨ctx.depth d - 1, by omega⟩
  rw [hn]
  refine applyWith_congr (fun compiler' ctx' d' a' hlt => ?_) compiler
  exact compileAt_eq_unbounded (by omega) compiler'

theorem dispatchWith_unbounded :
    dispatchWith unbounded ctx d a = dispatchWith (applyWith unbounded) ctx d a :=
  dispatchWith_congr fun compiler => unbounded_eq compiler ctx d a

/-! ## Top-level definitions -/

theorem objectFacetWith_congr {shape : Option (ObjectShape Definition)}
    (h : ∀ s ∈ shape, ∀ compiler, f compiler ctx (.object s) a = g compiler ctx (.object s) a) :
    objectFacetWith f ctx shape a = objectFacetWith g ctx shape a := by
  cases shape with
  | none => rfl
  | some s => simp only [objectFacetWith, h s rfl]

theorem schemaFacetWith_congr {schema : Option Definition}
    (h : ∀ e ∈ schema, ∀ compiler, f compiler ctx e a = g compiler ctx e a) :
    schemaFacetWith f ctx schema a = schemaFacetWith g ctx schema a := by
  cases schema with
  | none => rfl
  | some e => simp only [schemaFacetWith, nodeWith_congr (h e rfl)]

theorem bodyFacetsWith_congr {body : Option (Body Definition)}
    (h : ∀ e ∈ body.bind Body.schema, ∀ compiler a, f compiler ctx e a = g compiler ctx e a) :
    bodyFacetsWith f ctx body a = bodyFacetsWith g ctx body a := by
  cases body with
  | none => rfl
  | some b =>
    have hschema : schemaFacetWith f ctx b.schema (a.property "schema") =
        schemaFacetWith g ctx b.schema (a.property "schema") :=
      schemaFacetWith_congr fun e he compiler => h e he compiler _
    simp only [bodyFacetsWith, hschema]

theorem envelopeWith_congr
    (hshapes : ∀ s ∈ d.shapes, ∀ compiler a,
      f compiler ctx (.object s) a = g compiler ctx (.object s) a)
    (hnodes : ∀ e ∈ d.nodes, ∀ compiler a, f compiler ctx e a = g compiler ctx e a) :
    envelopeWith f ctx d a = envelopeWith g ctx d a := by
  have hobject : ∀ {shape key}, (∀ s ∈ shape, s ∈ d.shapes) →
      objectFacetWith f ctx shape (a.property key) = objectFacetWith g ctx shape (a.property key) :=
    fun hshape => objectFacetWith_congr fun s hs compiler => hshapes s (hshape s hs) compiler _
  have hbody : ∀ {body key}, (∀ e ∈ body.bind Body.schema, e ∈ d.nodes) →
      bodyFacetsWith f ctx body (a.property key) = bodyFacetsWith g ctx body (a.property key) :=
    fun hnode => bodyFacetsWith_congr fun e he => hnodes e (hnode e he)
  cases d with
  | record s => simp only [envelopeWith, hobject fun t ht => Option.mem_toList.mpr ht]
  | query s =>
    simp only [envelopeWith, hobject fun t ht => Option.mem_toList.mpr ht,
      hbody fun e he => Option.mem_toList.mpr he]
  | procedure s =>
    have hinput := @hbody s.input "input" fun e he =>
      List.mem_append_left _ (Option.mem_toList.mpr he)
    have houtput := @hbody s.output "output" fun e he =>
      List.mem_append_right _ (Option.mem_toList.mpr he)
    simp only [envelopeWith, hobject fun t ht => Option.mem_toList.mpr ht, hinput, houtput]
  | subscription s =>
    have hmessage : messageFacetWith f ctx s.message (a.property "message") =
        messageFacetWith g ctx s.message (a.property "message") :=
      schemaFacetWith_congr fun e he compiler => hnodes e (Option.mem_toList.mpr he) compiler _
    simp only [envelopeWith, hobject fun t ht => Option.mem_toList.mpr ht, hmessage]
  | _ => rfl

/-- A top-level definition asks only for what is no heavier than itself. -/
theorem definitionWith_congr
    (h : ∀ e : Definition, e.weight ≤ d.weight → ∀ compiler a,
      f compiler ctx e a = g compiler ctx e a) :
    definitionWith f ctx d a = definitionWith g ctx d a := by
  have henvelope : envelopeWith f ctx d a = envelopeWith g ctx d a := by
    refine envelopeWith_congr (fun s hs => h _ ?_) fun e he => h e ?_
    · have := Definition.weightObject_lt_of_mem_shapes hs
      rw [Definition.weight]
      omega
    · exact Nat.le_of_lt (Definition.weight_lt_of_mem_nodes he)
  have hextended : extendedWith f ctx d a = extendedWith g ctx d a :=
    extendedWith_congr fun compiler => h d (Nat.le_refl _) compiler a
  unfold definitionWith
  rw [henvelope, hextended]

theorem rank_lt_depth_of_weight_le {e : Definition} (he : e.weight ≤ d.weight) :
    ctx.rank e < ctx.depth d :=
  Nat.lt_of_le_of_lt (Nat.add_le_add_left he _) (ctx.rank_lt_depth d)

/-- A top-level definition is compiled under a bound that is never met. -/
theorem definitionWith_compileAt (ctx : Context) (d : Definition) (a : Address) :
    definitionWith (compileAt (ctx.depth d)) ctx d a = definitionWith unbounded ctx d a :=
  definitionWith_congr fun _ he compiler _ =>
    compileAt_eq_unbounded (rank_lt_depth_of_weight_le he) compiler

end Compile

namespace Context

open Compile (unbounded)

variable (ctx : Context) (d : Definition) (a : Address)

theorem compileNode_eq : ctx.compileNode d a = Compile.nodeWith unbounded ctx d a := rfl

theorem compileDefinition_eq : ctx.compileDefinition d a = Compile.definitionWith unbounded ctx d a :=
  Compile.definitionWith_compileAt ctx d a

end Context
end Lexicon
