import Lexicon.Proofs.Compile.Builtin
import Lexicon.Proofs.Compile.Depth
import Lexicon.Proofs.Compile.Stack

/-!
# The stack is left as it was

From a stack that holds the scope, the machine gives what the compiler gives in that scope, and it
leaves the stack as it found it, whether it fails or not (`Follows`). One lemma for each form and an
induction on the bound show this of every compilation (`follows_compileAt`). On the way the machine
enters only definitions of the dictionary, and none that is under way.
-/

namespace Lexicon

/-- No definition is under way twice, and all but the outermost one are in the dictionary. -/
structure Dictionary.Nests (dict : Dictionary) (scope : List Reference) : Prop where
  nodup : scope.Nodup
  known : ∀ r ∈ scope.dropLast, ∃ d, dict.definition? r = some d

namespace Dictionary.Nests

variable {dict : Dictionary} {scope : List Reference} {r : Reference} {d : Definition}

theorem nil : dict.Nests [] := ⟨List.nodup_nil, nofun⟩

theorem singleton (r : Reference) : dict.Nests [r] := ⟨List.nodup_singleton r, nofun⟩

theorem enter (h : dict.Nests scope) (hr : r ∉ scope) (hd : dict.definition? r = some d) :
    dict.Nests (r :: scope) := by
  refine ⟨List.nodup_cons.mpr ⟨hr, h.nodup⟩, ?_⟩
  cases scope with
  | nil => exact nofun
  | cons s rest =>
    intro q hq
    rw [List.dropLast_cons_cons] at hq
    rcases List.mem_cons.mp hq with rfl | hq
    · exact ⟨d, hd⟩
    · exact h.known q hq

/-- References nest no deeper than the dictionary has definitions, below the outermost one. -/
theorem length_le (h : dict.Nests scope) : scope.length ≤ dict.references.length + 1 := by
  have hsub : scope.dropLast ⊆ dict.references := by
    intro r hr
    obtain ⟨d, hd⟩ := h.known r hr
    exact mem_references_of_definition? hd
  have hnodup : scope.dropLast.Nodup := h.nodup.sublist (List.dropLast_sublist scope)
  have hle : scope.dropLast.length ≤ dict.references.length :=
    (hnodup.subperm hsub).length_le
  rw [List.length_dropLast] at hle
  omega

end Dictionary.Nests

/-- A reference is resolved, and then what it leads to is compiled in its scope. -/
theorem Compile.refWith_eq_resolve (apply : Apply) (ctx : Context) (s : RefShape) (a : Address) :
    refWith apply ctx s a = if ctx.followRefs then (do
      match ← ctx.resolve s.target with
      | none => return .any
      | some (r, target) => targetWith apply (ctx.enter r) target a) else return .any := by
  unfold refWith Context.resolve
  split
  · cases ctx.lookup s.target with
    | error e => rfl
    | ok d =>
      cases hinner : ctx.follow? (ctx.qualify s.target) with
      | error e => rfl
      | ok inner =>
        cases inner with
        | none => rfl
        | some inner =>
          obtain ⟨rfl, _⟩ := Context.follow?_eq_some hinner
          rfl
  · rfl

theorem Context.resolve_eq_some {ctx : Context} {reference : String} {r : Reference}
    {d : Definition} (h : ctx.resolve reference = .ok (some (r, d))) :
    ctx.lookup reference = .ok d ∧ r = ctx.qualify reference ∧ r ∉ ctx.scope := by
  unfold resolve at h
  cases hd : ctx.lookup reference with
  | error e =>
    rw [hd] at h
    exact nomatch h
  | ok e =>
    cases hinner : ctx.follow? (ctx.qualify reference) with
    | error e' =>
      rw [hd, hinner] at h
      exact nomatch h
    | ok inner =>
      rw [hd, hinner] at h
      cases inner with
      | none => exact nomatch h
      | some inner =>
        cases h
        exact ⟨rfl, rfl, (follow?_eq_some hinner).2⟩

structure Machine.Becomes (ctx : Context) (m m' : Machine) : Prop where
  scope : m'.scope = m.scope
  scopes : ctx.lexicons.Nests m.scope → ∀ s ∈ m'.scopes, s ∈ m.scopes ∨ ctx.lexicons.Nests s
  resolved : ∀ l ∈ m'.resolved,
    l ∈ m.resolved ∨ (ctx.inScope l.scope).resolve l.reference = l.result

theorem Machine.Becomes.trans {ctx : Context} {m m' m'' : Machine} (h : m.Becomes ctx m')
    (h' : m'.Becomes ctx m'') : m.Becomes ctx m'' where
  scope := h'.scope.trans h.scope
  scopes hm s hs := by
    rcases h'.scopes (h.scope ▸ hm) s hs with hs | hs
    · exact h.scopes hm s hs
    · exact .inr hs
  resolved l hl := by
    rcases h'.resolved l hl with hl | hl
    · exact h.resolved l hl
    · exact .inr hl

namespace Stacked

variable {α β : Type} {ctx : Context} {scope : List Reference}

theorem runOn_bind (c : Stacked α) (k : α → Stacked β) (m : Machine) :
    (c >>= k).runOn m = match c.runOn m with
      | (.ok x, m') => (k x).runOn m'
      | (.error e, m') => (.error e, m') := by
  unfold runOn ExceptT.run StateT.run
  simp only [bind, ExceptT.bind, ExceptT.mk, StateT.bind]
  cases c m with
  | mk result m' => cases result <;> rfl

theorem runOn_within (r : Reference) (c : Stacked α) (m : Machine) :
    (within r c).runOn m = ((c.runOn (m.enter r)).1, (c.runOn (m.enter r)).2.leave) := by
  have hrun : (within r c).runOn m =
      (liftM (c.runOn (m.enter r)).1 : Stacked α).runOn (c.runOn (m.enter r)).2.leave := rfl
  rw [hrun]
  cases (c.runOn (m.enter r)).1 <;> rfl

/-- From a stack that holds the scope, the machine does what the compilation does, and it leaves the
stack as it was. -/
structure Follows (ctx : Context) (scope : List Reference) (c : Stacked α) (f : Compile α) :
    Prop where
  result (m : Machine) : m.scope = scope → (c.runOn m).1 = (f.runOn m.tables).1
  tables (m : Machine) : m.scope = scope → (c.runOn m).2.tables = (f.runOn m.tables).2
  machine (m : Machine) : m.scope = scope → m.Becomes ctx (c.runOn m).2

namespace Follows

variable {c : Stacked α} {f : Compile α} {k : α → Stacked β} {g : α → Compile β}

theorem onTables (f : Compile α) : Follows ctx scope (onTables f) f where
  result _ _ := rfl
  tables _ _ := rfl
  machine _ _ := ⟨rfl, fun _ _ hs => .inl hs, fun _ hl => .inl hl⟩

theorem pure (x : α) : Follows ctx scope (pure x) (pure x) where
  result _ _ := rfl
  tables _ _ := rfl
  machine _ _ := ⟨rfl, fun _ _ hs => .inl hs, fun _ hl => .inl hl⟩

theorem throw (e : CompileError) :
    Follows ctx scope (throw e : Stacked α) (MonadExcept.throw e : Compile α) where
  result _ _ := rfl
  tables _ _ := rfl
  machine _ _ := ⟨rfl, fun _ _ hs => .inl hs, fun _ hl => .inl hl⟩

/-- The second step only has to follow after what the first one can give. -/
theorem bind_of_ok (hc : Follows ctx scope c f)
    (hk : ∀ x t t', f.runOn t = (.ok x, t') → Follows ctx scope (k x) (g x)) :
    Follows ctx scope (c >>= k) (f >>= g) := by
  have hrun : ∀ m, m.scope = scope →
      ((c >>= k).runOn m).1 = ((f >>= g).runOn m.tables).1 ∧
        ((c >>= k).runOn m).2.tables = ((f >>= g).runOn m.tables).2 ∧
          m.Becomes ctx ((c >>= k).runOn m).2 := by
    intro m hm
    have hresult := hc.result m hm
    have htables := hc.tables m hm
    have hmachine := hc.machine m hm
    rw [runOn_bind, Compile.runOn_bind]
    cases hcm : c.runOn m with
    | mk result m' =>
      cases hfm : f.runOn m.tables with
      | mk result' t =>
        rw [hcm, hfm] at hresult htables
        rw [hcm] at hmachine
        obtain rfl : result = result' := hresult
        obtain rfl : m'.tables = t := htables
        cases result with
        | error e => exact ⟨rfl, rfl, hmachine⟩
        | ok x =>
          have hm' : m'.scope = scope := hmachine.scope.trans hm
          have hk := hk x _ _ hfm
          exact ⟨hk.result m' hm', hk.tables m' hm', hmachine.trans (hk.machine m' hm')⟩
  exact ⟨fun m hm => (hrun m hm).1, fun m hm => (hrun m hm).2.1, fun m hm => (hrun m hm).2.2⟩

theorem bind (hc : Follows ctx scope c f) (hk : ∀ x, Follows ctx scope (k x) (g x)) :
    Follows ctx scope (c >>= k) (f >>= g) :=
  hc.bind_of_ok fun x _ _ _ => hk x

theorem map (hc : Follows ctx scope c f) (g : α → β) :
    Follows ctx scope (c >>= fun x => Pure.pure (g x)) (f >>= fun x => Pure.pure (g x)) :=
  hc.bind fun x => .pure (g x)

theorem lift (x : Except CompileError α) :
    Follows ctx scope (liftM x : Stacked α) (liftM x : Compile α) := by
  cases x with
  | error e => exact .throw e
  | ok x => exact .pure x

/-- The context that is read off the stack is the one of the scope. -/
theorem context_bind {k : Context → Stacked α} (hk : Follows ctx scope (k (ctx.inScope scope)) f) :
    Follows ctx scope (context ctx >>= k) f := by
  have hrun : ∀ m, m.scope = scope →
      (context ctx >>= k).runOn m = (k (ctx.inScope scope)).runOn m := by
    rintro m rfl
    rfl
  refine ⟨fun m hm => ?_, fun m hm => ?_, fun m hm => ?_⟩
  · rw [hrun m hm, hk.result m hm]
  · rw [hrun m hm, hk.tables m hm]
  · rw [hrun m hm]
    exact hk.machine m hm

/-- A definition is left on the way out, also when an error is on its way. -/
theorem within {r : Reference} (hc : Follows ctx (r :: scope) c f)
    (hr : ctx.lexicons.Nests scope → ctx.lexicons.Nests (r :: scope)) :
    Follows ctx scope (within r c) f where
  result m hm := by
    rw [runOn_within]
    exact hc.result (m.enter r) (congrArg _ hm)
  tables m hm := by
    rw [runOn_within]
    exact hc.tables (m.enter r) (congrArg _ hm)
  machine m hm := by
    subst hm
    rw [runOn_within]
    obtain ⟨hscope, hscopes, hresolved⟩ := hc.machine (m.enter r) rfl
    have hleft : (c.runOn (m.enter r)).2.leave.scope = m.scope := congrArg List.tail hscope
    refine ⟨hleft, fun hnests s hs => ?_, hresolved⟩
    rcases List.mem_cons.mp hs with heq | hs
    · have hback : ctx.lexicons.Nests (c.runOn (m.enter r)).2.leave.scope := by
        rw [hleft]
        exact hnests
      rw [heq]
      exact .inr hback
    · rcases hscopes (hr hnests) s hs with hs | hs
      · rcases List.mem_cons.mp hs with rfl | hs
        · exact .inr (hr hnests)
        · exact .inl hs
      · exact .inr hs

/-- Resolving a reference is written down. -/
theorem resolve (reference : String) :
    Follows ctx scope (resolve ctx reference)
      (liftM ((ctx.inScope scope).resolve reference)) := by
  refine context_bind ?_
  have hnoted : Follows ctx scope
      (modify fun m => { m with resolved := (⟨scope, reference,
        (ctx.inScope scope).resolve reference⟩ : Resolution) :: m.resolved })
      (Pure.pure () : Compile Unit) := by
    refine ⟨fun _ _ => rfl, fun _ _ => rfl, fun m hm => ?_⟩
    refine ⟨rfl, fun _ _ hs => .inl hs, fun l hl => ?_⟩
    rcases List.mem_cons.mp hl with rfl | hl
    · exact .inr rfl
    · exact .inl hl
  exact hnoted.bind fun _ => .lift _

end Follows

def Follow (ctx : Context) (apply : Apply) (apply' : Lexicon.Apply) : Prop :=
  ∀ scope compiler d a,
    Follows ctx scope (apply compiler d a) (apply' compiler (ctx.inScope scope) d a)

section
variable {apply : Apply} {apply' : Lexicon.Apply} {d : Definition} {a : Address}
  (h : Follow ctx apply apply')
include h

theorem follows_dispatchWith :
    Follows ctx scope (dispatchWith apply ctx d a)
      (Compile.dispatchWith apply' (ctx.inScope scope) d a) :=
  (Follows.lift _).bind fun compiler => h scope compiler d a

theorem follows_extendedWith :
    Follows ctx scope (extendedWith apply ctx d a)
      (Compile.extendedWith apply' (ctx.inScope scope) d a) :=
  (follows_dispatchWith h).bind fun _ => .onTables _

theorem follows_nodeWith :
    Follows ctx scope (nodeWith apply ctx d a)
      (Compile.nodeWith apply' (ctx.inScope scope) d a) := by
  refine (Follows.onTables _).bind fun o => ?_
  rcases o with _ | _ | v
  · exact (follows_extendedWith h).map some
  · exact .pure none
  · exact .pure (some v)

theorem follows_fieldsWith (s : ObjectShape Definition)
    (properties : List (String × Definition)) :
    Follows ctx scope (fieldsWith apply ctx s a properties)
      (Compile.fieldsWith apply' (ctx.inScope scope) s a properties) := by
  induction properties with
  | nil => exact .pure []
  | cons e rest ih =>
    obtain ⟨key, d⟩ := e
    rw [Compile.fieldsWith_cons]
    refine (Follows.onTables _).bind fun _ => (follows_nodeWith h).bind fun v => ?_
    cases v with
    | none => exact ih
    | some v => exact ih.map _

theorem follows_objectWith (s : ObjectShape Definition) :
    Follows ctx scope (objectWith apply ctx s a)
      (Compile.objectWith apply' (ctx.inScope scope) s a) :=
  (follows_fieldsWith h s s.properties).bind fun _ => (Follows.onTables get).map _

theorem follows_arrayWith (s : ArrayShape Definition) :
    Follows ctx scope (arrayWith apply ctx s a)
      (Compile.arrayWith apply' (ctx.inScope scope) s a) :=
  (follows_nodeWith h).map _

theorem follows_branchWith (compiler : TypeCompiler) (reference : String) :
    Follows ctx scope (branchWith apply compiler reference a)
      (Compile.branchWith apply' (ctx.inScope scope) compiler reference a) := by
  refine (Follows.onTables _).bind fun o => ?_
  rcases o with _ | _ | v
  · exact (h scope compiler _ a).bind fun _ => (Follows.onTables _).map some
  · exact .pure none
  · exact .pure (some v)

theorem follows_branchesWith (compiler : TypeCompiler) (index : Nat) (refs : List String) :
    Follows ctx scope (branchesWith apply ctx compiler a index refs)
      (Compile.branchesWith apply' (ctx.inScope scope) compiler a index refs) := by
  induction refs generalizing index with
  | nil => exact .pure []
  | cons reference rest ih =>
    refine .context_bind ((follows_branchWith h compiler reference).bind fun v => ?_)
    cases v with
    | none => exact ih (index + 1)
    | some v => exact (ih (index + 1)).map _

theorem follows_unionWith (s : UnionShape) :
    Follows ctx scope (unionWith apply ctx s a)
      (Compile.unionWith apply' (ctx.inScope scope) s a) :=
  (Follows.lift _).bind fun compiler => (follows_branchesWith h compiler 0 s.refs).map _

theorem follows_targetWith (target : Definition) :
    Follows ctx scope (targetWith apply ctx target a)
      (Compile.targetWith apply' (ctx.inScope scope) target a) := by
  have hdispatch : Follows ctx scope (dispatchWith apply ctx target a)
      (Compile.dispatchWith apply' (ctx.inScope scope) target a) := follows_dispatchWith h
  cases target with
  | record s =>
    obtain ⟨description, key, body⟩ := s
    cases body with
    | none => exact .pure _
    | some s => exact (Follows.lift _).bind fun compiler => (h scope compiler _ a).map _
  | _ => exact hdispatch.map _

/-- What a reference leads to is in the dictionary and not under way, so it may be entered. -/
theorem follows_refWith (s : RefShape) :
    Follows ctx scope (refWith apply ctx s a)
      (Compile.refWith apply' (ctx.inScope scope) s a) := by
  have hfollow : (ctx.inScope scope).followRefs = ctx.followRefs := rfl
  rw [Compile.refWith_eq_resolve, hfollow]
  unfold refWith
  split
  · refine (Follows.resolve s.target).bind_of_ok fun o t t' ho => ?_
    cases o with
    | none => exact .pure _
    | some target =>
      obtain ⟨r, d⟩ := target
      obtain ⟨hlookup, rfl, hr⟩ :=
        Context.resolve_eq_some (Compile.runOn_lift_eq_ok.mp ho).1
      exact (follows_targetWith h d).within fun hnests =>
        hnests.enter hr (Context.definition?_of_lookup hlookup)
  · exact .pure _

theorem follows_typedWith (type : NodeType) :
    Follows ctx scope (typedWith apply ctx type d a)
      (Compile.typedWith apply' (ctx.inScope scope) type d a) := by
  cases type with
  | array => exact (Follows.onTables _).bind fun s => follows_arrayWith h s
  | object => exact (Follows.onTables _).bind fun s => follows_objectWith h s
  | union => exact (Follows.onTables _).bind fun s => follows_unionWith h s
  | ref => exact (Follows.onTables _).bind fun s => follows_refWith h s
  | token => exact (Follows.onTables _).bind fun _ => .context_bind (.pure _)
  | _ => exact .onTables _

end

/-- Compiling on the stack is compiling in its scope, for every bound on nesting. -/
theorem follow_compileAt (ctx : Context) (n : Nat) :
    Follow ctx (compileAt ctx n) (Compile.compileAt n) := by
  induction n with
  | zero => exact fun _ _ _ _ => .throw _
  | succ n ih =>
    intro scope compiler d a
    cases compiler with
    | anything => exact .pure _
    | constant v => exact .pure v
    | unsupported tag => exact .throw _
    | node type => exact follows_typedWith ih type

section
variable {apply : Apply} {apply' : Lexicon.Apply} (h : Follow ctx apply apply')
include h

theorem follows_objectFacetWith (shape : Option (ObjectShape Definition)) (a : Address) :
    Follows ctx scope (objectFacetWith apply ctx shape a)
      (Compile.objectFacetWith apply' (ctx.inScope scope) shape a) := by
  cases shape with
  | none => exact .pure _
  | some s =>
    refine (Follows.onTables _).bind fun o => ?_
    rcases o with _ | _ | v
    · refine (Follows.onTables _).bind fun _ => (Follows.lift _).bind fun compiler => ?_
      exact (h scope compiler _ a).bind fun _ => .onTables _
    · exact .pure _
    · exact .pure v

theorem follows_schemaFacetWith (schema : Option Definition) (a : Address) :
    Follows ctx scope (schemaFacetWith apply ctx schema a)
      (Compile.schemaFacetWith apply' (ctx.inScope scope) schema a) := by
  cases schema with
  | none => exact .pure _
  | some d => exact (Follows.onTables _).bind fun _ => (follows_nodeWith h).map _

theorem follows_bodyFacetsWith (body : Option (Body Definition)) (a : Address) :
    Follows ctx scope (bodyFacetsWith apply ctx body a)
      (Compile.bodyFacetsWith apply' (ctx.inScope scope) body a) := by
  cases body with
  | none => exact .pure _
  | some b => exact (follows_schemaFacetWith h b.schema _).map _

theorem follows_envelopeWith (d : Definition) (a : Address) :
    Follows ctx scope (envelopeWith apply ctx d a)
      (Compile.envelopeWith apply' (ctx.inScope scope) d a) := by
  have hobject := @follows_objectFacetWith ctx scope _ _ h
  have hbody := @follows_bodyFacetsWith ctx scope _ _ h
  cases d with
  | record s => exact (hobject _ _).map _
  | query s => exact (hobject _ _).bind fun _ => (hbody _ _).map _
  | procedure s =>
    exact (hobject _ _).bind fun _ => (hbody _ _).bind fun _ => (hbody _ _).map _
  | subscription s =>
    exact (hobject _ _).bind fun _ => (follows_schemaFacetWith h _ _).map _
  | _ => exact .pure none

theorem follows_definitionWith (d : Definition) (a : Address) :
    Follows ctx scope (definitionWith apply ctx d a)
      (Compile.definitionWith apply' (ctx.inScope scope) d a) := by
  refine (follows_envelopeWith h d a).bind fun c => ?_
  cases c with
  | some c => exact .pure c
  | none => exact (follows_extendedWith h).map _

end

/-- Each top-level definition is entered on an empty stack. -/
theorem follows_definitions (ctx : Context) (nsid : String) (defs : List (String × Definition)) :
    Follows ctx [] (definitions ctx nsid defs)
      (Compile.definitions (ctx.inScope []) nsid defs) := by
  induction defs with
  | nil => exact .pure []
  | cons e rest ih =>
    obtain ⟨name, d⟩ := e
    refine (Follows.onTables _).bind fun o => ?_
    rcases o with _ | _ | v
    · have hd : Follows ctx [⟨nsid, name⟩] (compileDefinition ctx d name)
          (((ctx.inScope []).enter ⟨nsid, name⟩).compileDefinition d name) :=
        follows_definitionWith (follow_compileAt ctx (ctx.depth d)) d name
      exact (hd.within fun _ => .singleton _).bind fun _ => ih.map _
    · exact ih
    · exact ih.map _

end Stacked
end Lexicon
