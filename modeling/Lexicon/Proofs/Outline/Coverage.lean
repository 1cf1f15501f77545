import Lexicon.Proofs.Compile.Builtin
import Lexicon.Proofs.Compile.Consults
import Lexicon.Proofs.Compile.Depth
import Lexicon.Proofs.Outline.Basic

/-!
# Compilation follows the outline

The outline and the compilation walk through definitions apart from each other. `Covers A R L c`
says that the compilation `c` consults addresses in `A` only and that it extends the nodes at all
addresses in `L`. The nodes at addresses in `R` are to be extended after it: only there it may leave
metadata of its own, but for the flag of the type of a blob.

Where references are followed, every compiler covers the entries that the outline lists below its
node, if the two are at the same place of the same dictionary (`Follows`) and the outline has room
for the definitions that references can still lead to. Elsewhere it covers what the outline lists
when references lead nowhere (`following`). The induction is on the bound on nesting of the
compilation (`covered_compileAt`); a reference uses up room where it uses up the bound.
-/

namespace Lexicon

namespace Outline

open Compile (Consults Visits compileAt applyWith dispatchWith bodyWith extendedWith nodeWith
  fieldsWith objectWith branchWith branchesWith refWith targetWith objectFacetWith schemaFacetWith
  bodyFacetsWith envelopeWith definitionWith)

structure Follows (ctx outer : Context) : Prop where
  registry : ctx.registry = .builtin
  lexicons : ctx.lexicons = outer.lexicons
  scope : ctx.scope = outer.scope
  proper : ∀ r d, ctx.lexicons.definition? r = some d → d.All Definition.Proper

variable {ctx outer inner : Context} {reference : String} {d target : Definition} {a : Address}
  {room n : Nat}

theorem Follows.qualify (h : Follows ctx outer) :
    ctx.qualify reference = outer.qualify reference := by
  unfold Context.qualify Context.base Context.current?
  rw [h.scope]

theorem Follows.lookup (h : Follows ctx outer) : ctx.lookup reference = outer.lookup reference := by
  unfold Context.lookup
  rw [h.qualify, h.lexicons]

theorem Follows.enter (h : Follows ctx outer) (r : Reference) :
    Follows (ctx.enter r) (outer.enter r) where
  registry := h.registry
  lexicons := h.lexicons
  scope := congrArg (r :: ·) h.scope
  proper := h.proper

/-- Where the compilation enters a target, the outline goes on with the target. -/
theorem followAt_of_follow? (h : Follows ctx outer) (hlookup : ctx.lookup reference = .ok target)
    (hscope : ctx.qualify reference ∉ ctx.scope) :
    followAt (room + 1) outer reference a =
      belowTarget (followAt room) (outer.enter (ctx.qualify reference)) target a := by
  have hfollow : outer.follow? (ctx.qualify reference) =
      .ok (some (outer.enter (ctx.qualify reference))) := by
    unfold Context.follow?
    rw [if_neg]
    rw [← h.scope]
    simpa using hscope
  simp only [followAt, ← h.lookup, hlookup, ← h.qualify, hfollow]

/-- Where cycles are permitted and the compilation stops at one, so does the outline. -/
theorem followAt_of_follow?_none (h : Follows ctx outer)
    (hinner : ctx.follow? (ctx.qualify reference) = .ok none) :
    followAt room outer reference a = [] := by
  have hscope : outer.scope.contains (outer.qualify reference) = true := by
    rw [← h.scope, ← h.qualify]
    unfold Context.follow? at hinner
    split at hinner
    · assumption
    · exact nomatch hinner
  have hfollow : ∀ inner, outer.follow? (outer.qualify reference) ≠ .ok (some inner) := by
    intro inner hsome
    unfold Context.follow? at hsome
    rw [if_pos hscope] at hsome
    split at hsome <;> cases hsome
  cases room with
  | zero => rfl
  | succ room =>
    simp only [followAt]
    split
    · rename_i inner _ hsome
      exact absurd hsome (hfollow _)
    · rfl

/-- A target that is entered is in the dictionary, so there is room for it. -/
theorem unvisited_enter_lt (h : Follows ctx outer) (hlookup : ctx.lookup reference = .ok target)
    (hscope : ctx.qualify reference ∉ ctx.scope) :
    (outer.enter (ctx.qualify reference)).unvisited < outer.unvisited := by
  have hmem := Dictionary.mem_references_of_definition? (Context.definition?_of_lookup hlookup)
  rw [h.lexicons] at hmem
  rw [h.scope] at hscope
  exact Context.unvisited_enter_lt hmem hscope

/-! ## Coverage -/

def following (ctx : Context) (room : Nat) : Follow :=
  if ctx.followRefs then followAt room else stop

theorem following_of_follows (h : ctx.followRefs = true) : following ctx room = followAt room :=
  if_pos h

theorem following_of_not_follows (h : ¬ ctx.followRefs = true) : following ctx room = stop :=
  if_neg h

/-- The flag that is recorded for the type of a blob. No node is extended there. -/
def TypeFlag (q : Address) (key : String) : Prop :=
  key = "readOnly" ∧ ∃ a, q = Address.property a "$type"

section
variable {α β : Type} {c : Compile α} {f : α → Compile β} {A A' R L L' : List Address}
  {a : Address}

/-- The compilation consults addresses in `A` only and visits those in `L`. Metadata of its own are
at addresses in `R`, which are to be visited after it. -/
def Covers (A R L : List Address) (c : Compile α) : Prop :=
  Visits (· ∈ A) (fun q key => q ∈ R ∨ TypeFlag q key) (· ∈ L) c

theorem Covers.mono (h : Covers A R L c) (hA : A ⊆ A') (hL : L' ⊆ L) : Covers A' R L' c :=
  Visits.mono h (fun _ hq => hA hq) (fun _ _ => id) fun _ hq => hL hq

theorem Covers.within (h : Covers A R L c) (hA : A ⊆ A') : Covers A' R L c :=
  h.mono hA (List.Subset.refl _)

/-- What leaves no metadata of its own can be followed by anything. -/
theorem Covers.relax (h : Covers A [] L c) : Covers A R L c :=
  Visits.weaken h (fun _ _ hO => hO.imp_left (nomatch ·)) fun _ => id

theorem Covers.consults (h : Consults (· ∈ A) (fun q key => q ∈ R ∨ TypeFlag q key) c) :
    Covers A R [] c :=
  (Visits.consults h).weaken (fun _ _ => id) fun _ hq => nomatch hq

theorem Covers.pure (x : α) : Covers A R [] (Pure.pure x : Compile α) := .consults (.pure x)

theorem Covers.bind (hc : Covers A R L c) (hf : ∀ x, Covers A R L' (f x)) :
    Covers A R (L ++ L') (c >>= f) :=
  (Visits.bind hc hf).weaken (fun _ _ => id) fun _ => List.mem_append.mp

/-- Each part covers a list of its own. -/
theorem Covers.append (hc : Covers A R L c) (hf : ∀ x, Covers A' R L' (f x)) :
    Covers (A ++ A') R (L ++ L') (c >>= f) :=
  .bind (hc.within (List.subset_append_left _ _)) fun x =>
    (hf x).within (List.subset_append_right _ _)

theorem Covers.after (hc : Consults (· ∈ A) (fun q key => q ∈ R ∨ TypeFlag q key) c)
    (hf : ∀ x, Covers A R L (f x)) : Covers A R L (c >>= f) :=
  Visits.after hc hf

theorem Covers.map (g : α → β) (hc : Covers A R L c) :
    Covers A R L (c >>= fun x => Pure.pure (g x)) :=
  Visits.map g hc

/-- Extending a node settles its metadata. -/
theorem Covers.extend {c : Compile Validator} (hc : Covers A [a] L c)
    (description : Option String) (default : Option Json) (ha : a ∈ A) :
    Covers A [] (a :: L) (c >>= fun v => Compile.extend v description default a) := by
  refine (Visits.extend hc description default ha).weaken (fun q key hO => ?_) fun q hq => ?_
  · rcases hO with ⟨hmem | hflag, hne⟩
    · exact absurd (List.mem_singleton.mp hmem) hne
    · exact .inr hflag
  · exact (List.mem_cons.mp hq).symm

end

/-! ## Nodes -/

def Covered (apply : Apply) : Prop :=
  ∀ {room : Nat} {ctx outer : Context} {d : Definition} {a : Address}, Follows ctx outer →
    outer.unvisited ≤ room → d.All Definition.Proper →
    Covers (a :: addresses (below (following ctx room) outer d a)) [a]
      (addresses (below (following ctx room) outer d a)) (dispatchWith apply ctx d a)

section
variable {ctx outer : Context} {d : Definition} {a : Address} {room : Nat} {apply : Apply}
  {follow : Follow}
variable (happly : Covered apply) (h : Follows ctx outer) (hroom : outer.unvisited ≤ room)
include happly h hroom

theorem covers_extendedWith (hd : d.All Definition.Proper) :
    Covers (a :: addresses (below (following ctx room) outer d a)) []
      (a :: addresses (below (following ctx room) outer d a)) (extendedWith apply ctx d a) := by
  exact (happly (a := a) h hroom hd).extend d.description d.default? (List.mem_cons_self ..)

theorem covers_nodeWith (hd : d.All Definition.Proper) :
    Covers (a :: addresses (below (following ctx room) outer d a)) []
      (a :: addresses (below (following ctx room) outer d a)) (nodeWith apply ctx d a) := by
  refine .override (List.mem_cons_self ..) (fun o => ?_) ?_
  · cases o <;> exact .pure _
  · exact (covers_extendedWith happly h hroom hd).map some

theorem covers_fieldsWith (s : ObjectShape Definition) {properties : List (String × Definition)}
    (hd : ∀ e ∈ properties, e.2.All Definition.Proper) :
    Covers (addresses (belowProperties (following ctx room) outer properties a)) []
      (addresses (belowProperties (following ctx room) outer properties a))
      (fieldsWith apply ctx s a properties) := by
  induction properties with
  | nil => exact .pure []
  | cons e rest ih =>
    obtain ⟨key, d⟩ := e
    have hnode := covers_nodeWith (a := a.property key) happly h hroom
      (hd (key, d) (List.mem_cons_self ..))
    have hrest := ih fun e he => hd e (List.mem_cons_of_mem _ he)
    have hlist : addresses (belowProperties (following ctx room) outer ((key, d) :: rest) a) =
        (a.property key :: addresses (below (following ctx room) outer d (a.property key))) ++
          addresses (belowProperties (following ctx room) outer rest a) := by
      simp [belowProperties]
    rw [Compile.fieldsWith_cons, hlist]
    refine .after ?_ fun _ => .append hnode fun v => ?_
    · split
      · exact .requireNode (by simp)
      · exact .pure ()
    · cases v with
      | none => exact hrest
      | some v => exact hrest.map _

theorem covers_objectWith (s : ObjectShape Definition)
    (hd : ∀ e ∈ s.properties, e.2.All Definition.Proper) :
    Covers (a :: addresses (belowObject (following ctx room) outer s a)) []
      (addresses (belowObject (following ctx room) outer s a)) (objectWith apply ctx s a) := by
  have hbelow : belowObject (following ctx room) outer s a =
      belowProperties (following ctx room) outer s.properties a := by
    cases s
    rw [belowObject]
  have hfields := covers_fieldsWith (a := a) happly h hroom s hd
  rw [Compile.objectWith_eq, hbelow]
  have hall := (hfields.within (List.subset_cons_self a _)).bind fun fields =>
    Covers.consults (.map (fun o => Validator.object (fields ++ o.additional))
      (.optionsAt (List.mem_cons_self ..)))
  rwa [List.append_nil] at hall

theorem covers_targetWith (hd : d.All Definition.Proper) :
    Covers (a :: addresses (belowTarget (following ctx room) outer d a)) [a]
      (addresses (belowTarget (following ctx room) outer d a)) (targetWith apply ctx d a) := by
  have hdispatch := happly (a := a) h hroom hd
  cases d with
  | record s =>
    obtain ⟨description, key, body⟩ := s
    cases body with
    | none => exact .consults (.pure _)
    | some s =>
      have hs : s ∈ (Definition.record ⟨description, key, some s⟩).shapes := by
        simp [Definition.shapes]
      have hobject := happly (a := a) h hroom (hd.shape hs (hd.here.shape hs))
      rw [below] at hobject
      rw [Compile.targetWith_record_eq (.of_builtin h.registry)]
      exact hobject.map _
  | _ => exact hdispatch.map _

/-- A reference is entered where the outline follows it. -/
theorem covers_refWith (s : RefShape) :
    Covers (a :: addresses (following ctx room outer s.target a)) [a]
      (addresses (following ctx room outer s.target a)) (refWith apply ctx s a) := by
  unfold refWith
  split
  · rename_i hfollow
    rw [following_of_follows hfollow]
    refine .lift_bind fun target hlookup => .lift_bind fun inner hinner => ?_
    cases inner with
    | none =>
      rw [followAt_of_follow?_none h hinner]
      exact Covers.consults (.pure _)
    | some inner =>
      obtain ⟨rfl, hscope⟩ := Context.follow?_eq_some hinner
      -- The target was not visited before, so the outline has room for one step more.
      have hlt := unvisited_enter_lt h hlookup hscope
      obtain ⟨room, rfl⟩ : ∃ r, room = r + 1 := ⟨room - 1, by omega⟩
      rw [followAt_of_follow? h hlookup hscope]
      have hroom : (outer.enter (ctx.qualify s.target)).unvisited ≤ room := by omega
      have htarget := covers_targetWith (a := a) happly (h.enter _) hroom
        (h.proper _ _ (Context.definition?_of_lookup hlookup))
      have hentered : (ctx.enter (ctx.qualify s.target)).followRefs = true := hfollow
      rwa [following_of_follows hentered] at htarget
  · rename_i hfollow
    rw [following_of_not_follows hfollow]
    exact .pure _

theorem covers_branchWith (reference : String) :
    Covers (a :: addresses (following ctx room outer reference a)) []
      (a :: addresses (following ctx room outer reference a))
      (branchWith apply ctx (.node .ref) reference a) := by
  refine .override (List.mem_cons_self ..) (fun o => ?_) ?_
  · cases o <;> exact .pure _
  · have hd : (Definition.ref { target := reference }).All Definition.Proper :=
      .intro ⟨nofun, nofun⟩ nofun
    have href := happly (a := a) h hroom hd
    rw [← Compile.apply_ref_eq (Compile.require_ref h.registry), below] at href
    have hextended := (href.extend none none (List.mem_cons_self ..)).map some
    rwa [bind_assoc] at hextended

theorem covers_branchesWith (index : Nat) (refs : List String) :
    Covers (addresses (branches (following ctx room) outer a index refs)) []
      (addresses (branches (following ctx room) outer a index refs))
      (branchesWith apply ctx (.node .ref) a index refs) := by
  induction refs generalizing index with
  | nil => exact .pure []
  | cons reference rest ih =>
    have hbranch := covers_branchWith (a := a.branch index) happly h hroom reference
    have hlist : addresses (branches (following ctx room) outer a index (reference :: rest)) =
        (a.branch index :: addresses (following ctx room outer reference (a.branch index))) ++
          addresses (branches (following ctx room) outer a (index + 1) rest) := by
      simp [branches]
    rw [hlist]
    refine .append hbranch fun v => ?_
    cases v with
    | none => exact ih (index + 1)
    | some v => exact (ih (index + 1)).map _

end

theorem consults_string {A : Address → Prop} {O : Address → String → Prop} (ctx : Context)
    (s : StringShape) {a : Address} (hown : ∀ key, O a key) :
    Consults A O (Compile.string ctx s a) := by
  rw [Compile.string_eq]
  refine .map _ ?_
  generalize s.metadata = metadata
  induction metadata with
  | nil => exact .pure ()
  | cons entries rest ih =>
    rw [List.foldlM_cons]
    exact .bind (.record fun key _ => hown key) fun _ => ih

variable {ctx outer : Context} {d : Definition} {a : Address} {room : Nat} {apply : Apply}

theorem covers_bodyWith (happly : Covered apply) (h : Follows ctx outer)
    (hroom : outer.unvisited ≤ room) (hd : d.All Definition.Proper) :
    Covers (a :: addresses (below (following ctx room) outer d a)) [a]
      (addresses (below (following ctx room) outer d a)) (bodyWith apply ctx d a) := by
  cases d with
  | object s | params s =>
    have hproperties : ∀ e ∈ s.properties, e.2.All Definition.Proper := fun e he =>
      hd.inside (Definition.mem_parts.mpr
        (.inl ⟨s, by simp [Definition.shapes], List.mem_map_of_mem he⟩))
    rw [below]
    exact (covers_objectWith happly h hroom s hproperties).relax
  | array s =>
    obtain ⟨description, items, minLength, maxLength⟩ := s
    have hitems : items.All Definition.Proper :=
      hd.inside (Definition.mem_parts.mpr (.inr (by simp [Definition.nodes])))
    have hnode := covers_nodeWith (a := a.element) happly h hroom hitems
    rw [below, addresses_cons, address_ofNode]
    exact ((hnode.within (List.subset_cons_self _ _)).map _).relax
  | union s =>
    refine .lift_bind fun compiler hcompiler => ?_
    rw [h.registry] at hcompiler
    obtain rfl : .node .ref = compiler := Except.ok.inj hcompiler
    have hbranches := covers_branchesWith (a := a) happly h hroom 0 s.refs
    rw [below]
    exact ((hbranches.within (List.subset_cons_self _ _)).map _).relax
  | ref s =>
    rw [below]
    exact covers_refWith happly h hroom s
  | string s => exact .consults (consults_string ctx s fun _ => .inl (List.mem_singleton.mpr rfl))
  | blob s =>
    refine .consults (.bind (.record fun key hkey => ?_) fun _ => .pure _)
    exact .inr ⟨List.mem_singleton.mp hkey, a, rfl⟩
  | _ => exact .consults (.pure _)

/-- Compiling covers what the outline lists, for every bound on the nesting. -/
theorem covered_compileAt (n : Nat) : Covered (compileAt n) := by
  induction n with
  | zero =>
    intro room ctx outer d a h hroom hd
    exact .lift_bind fun _ _ => .throw _ _ .tooDeep
  | succ n ih =>
    intro room ctx outer d a h hroom hd
    rw [Compile.compileAt, Compile.dispatchWith_eq_bodyWith h.registry hd.here]
    exact covers_bodyWith ih h hroom hd

/-! ## Top-level definitions -/

section
variable (happly : Covered apply) (h : Follows ctx outer) (hroom : outer.unvisited ≤ room)
include happly h hroom

theorem covers_objectFacetWith {shape : Option (ObjectShape Definition)}
    (hd : ∀ s ∈ shape, (Definition.object s).All Definition.Proper) :
    Covers (addresses (objectFacet (following ctx room) outer shape a)) []
      (addresses (objectFacet (following ctx room) outer shape a))
      (objectFacetWith apply ctx shape a) := by
  cases shape with
  | none => exact .pure _
  | some s =>
    have hobject := happly (a := a) h hroom (hd s rfl)
    rw [below] at hobject
    rw [Compile.objectFacetWith_eq (.of_builtin h.registry), objectFacet, addresses_cons]
    refine .override (List.mem_cons_self ..) (fun o => ?_) ?_
    · cases o <;> exact .pure _
    · refine Covers.after (.markRequired (List.mem_cons_self ..)) fun _ => ?_
      exact hobject.extend s.description none (List.mem_cons_self ..)

theorem covers_schemaFacetWith {schema : Option Definition}
    (hd : ∀ d ∈ schema, d.All Definition.Proper) :
    Covers (addresses (schemaFacet (following ctx room) outer schema a)) []
      (addresses (schemaFacet (following ctx room) outer schema a))
      (schemaFacetWith apply ctx schema (a.property "schema")) := by
  cases schema with
  | none => exact .pure _
  | some d =>
    have hnode := covers_nodeWith (a := a.property "schema") happly h hroom (hd d rfl)
    rw [schemaFacet, addresses_cons, address_ofNode]
    exact .after (.requireNode (List.mem_cons_self ..)) fun _ => hnode.map _

theorem covers_bodyFacetsWith {body : Option (Body Definition)}
    (hd : ∀ d ∈ body.bind Body.schema, d.All Definition.Proper) :
    Covers (addresses (bodyFacet (following ctx room) outer body a)) []
      (addresses (bodyFacet (following ctx room) outer body a))
      (bodyFacetsWith apply ctx body a) := by
  cases body with
  | none => exact .pure _
  | some b => exact (covers_schemaFacetWith happly h hroom hd).map _

theorem covers_envelopeWith (hd : d.All Definition.Proper) :
    Covers (addresses (belowTop (following ctx room) outer d a)) []
      (if d.isPrimary then addresses (belowTop (following ctx room) outer d a) else [])
      (envelopeWith apply ctx d a) := by
  have hobject : ∀ (name : String) (shape : Option (ObjectShape Definition)),
      (∀ s ∈ shape, s ∈ d.shapes) →
      Covers (addresses (objectFacet (following ctx room) outer shape (a.property name))) []
        (addresses (objectFacet (following ctx room) outer shape (a.property name)))
        (objectFacetWith apply ctx shape (a.property name)) := fun name shape hshape =>
    covers_objectFacetWith happly h hroom fun s hs =>
      hd.shape (hshape s hs) (hd.here.shape (hshape s hs))
  have hnode : ∀ e ∈ d.nodes, e.All Definition.Proper :=
    fun e he => hd.inside (Definition.mem_parts.mpr (.inr he))
  cases d with
  | record s =>
    have hrecord := hobject "record" s.record fun t ht => by simpa [Definition.shapes] using ht
    exact hrecord.map _
  | query s =>
    have hparameters := hobject "parameters" s.parameters fun t ht => by
      simpa [Definition.shapes] using ht
    have houtput := covers_bodyFacetsWith (a := a.property "output") happly h hroom
      fun t ht => hnode t (by simpa [Definition.nodes] using ht)
    rw [belowTop, addresses_append]
    exact hparameters.append fun _ => houtput.map _
  | procedure s =>
    have hparameters := hobject "parameters" s.parameters fun t ht => by
      simpa [Definition.shapes] using ht
    have hbody : ∀ (name : String) (body : Option (Body Definition)),
        body = s.input ∨ body = s.output →
        Covers (addresses (bodyFacet (following ctx room) outer body (a.property name))) []
          (addresses (bodyFacet (following ctx room) outer body (a.property name)))
          (bodyFacetsWith apply ctx body (a.property name)) := by
      intro name body hbody
      refine covers_bodyFacetsWith happly h hroom fun t ht => hnode t ?_
      rcases hbody with rfl | rfl
      · simpa [Definition.nodes] using Or.inl ht
      · simpa [Definition.nodes] using Or.inr ht
    rw [belowTop, addresses_append, addresses_append, List.append_assoc]
    exact hparameters.append fun _ => (hbody "input" s.input (.inl rfl)).append fun _ =>
      (hbody "output" s.output (.inr rfl)).map _
  | subscription s =>
    have hparameters := hobject "parameters" s.parameters fun t ht => by
      simpa [Definition.shapes] using ht
    have hmessage := covers_schemaFacetWith (a := a.property "message") happly h hroom
      fun t ht => hnode t (by simpa [Definition.nodes] using ht)
    rw [belowTop, addresses_append]
    exact hparameters.append fun _ => hmessage.map _
  | _ => exact .pure _

/-- A top-level definition that is not primary is extended at its own address. -/
theorem covers_definitionWith (hd : d.All Definition.Proper) :
    Covers (a :: addresses (belowTop (following ctx room) outer d a)) []
      ((if d.isPrimary then [] else [a]) ++ addresses (belowTop (following ctx room) outer d a))
      (definitionWith apply ctx d a) := by
  cases hprimary : d.isPrimary with
  | true =>
    have henvelope := covers_envelopeWith (a := a) happly h hroom hd
    rw [hprimary, if_pos rfl] at henvelope
    have hbelow : below (following ctx room) outer d a = [] := by
      cases d <;> first | rfl | exact nomatch hprimary
    have hextended := covers_extendedWith (a := a) happly h hroom hd
    rw [hbelow] at hextended
    have hall : Covers (a :: addresses (belowTop (following ctx room) outer d a)) []
        (addresses (belowTop (following ctx room) outer d a) ++ [])
        (definitionWith apply ctx d a) := by
      refine (henvelope.within (List.subset_cons_self a _)).bind fun c => ?_
      cases c with
      | some c => exact .pure c
      | none => exact (hextended.mono (by simp) (List.nil_subset _)).map _
    exact hall.mono (List.Subset.refl _) (by simp)
  | false =>
    have hbelow : belowTop (following ctx room) outer d a =
        below (following ctx room) outer d a := by
      cases d <;> first | rfl | exact nomatch hprimary
    rw [Compile.definitionWith_of_not_primary apply ctx hprimary, hbelow]
    exact (covers_extendedWith happly h hroom hd).map _

end

/-! ## Documents -/

def visitedOf (follow : Follow) (ctx : Context) (nsid : String) (e : String × Definition) :
    List Address :=
  (if e.2.isPrimary then [] else [e.1]) ++
    addresses (belowTop follow (ctx.enter ⟨nsid, e.1⟩) e.2 e.1)

theorem mem_visitedOf {nsid : String} {e : String × Definition} {p : Address}
    (hp : p ∈ addresses (entriesOf follow ctx nsid e))
    (hprimary : e.1 = p → e.2.isPrimary = false) : p ∈ visitedOf follow ctx nsid e := by
  rcases List.mem_cons.mp hp with rfl | hp
  · simp [visitedOf, hprimary rfl]
  · exact List.mem_append_right _ hp

theorem covers_definitions (h : Follows ctx outer)
    (hroom : outer.lexicons.references.length ≤ room) (nsid : String)
    {defs : List (String × Definition)} (hdefs : ∀ e ∈ defs, e.2.All Definition.Proper) :
    Covers (addresses (defs.flatMap (entriesOf (following ctx room) outer nsid))) []
      (defs.flatMap (visitedOf (following ctx room) outer nsid))
      (Compile.definitions ctx nsid defs) := by
  induction defs with
  | nil => exact .pure []
  | cons e rest ih =>
    have hdefinition := covers_definitionWith (a := e.1)
      (covered_compileAt ((ctx.enter ⟨nsid, e.1⟩).depth e.2)) (h.enter ⟨nsid, e.1⟩)
      (Nat.le_trans (List.length_filter_le ..) hroom) (hdefs e (List.mem_cons_self ..))
    have hrest := ih fun e he => hdefs e (List.mem_cons_of_mem _ he)
    have hafter := (hrest.within (List.subset_append_right
      (addresses (entriesOf (following ctx room) outer nsid e)) _)).toConsults
    rw [List.flatMap_cons, List.flatMap_cons, addresses_append]
    refine .override ?_ (fun o => ?_) ?_
    · exact List.mem_append_left _ (List.mem_cons_self ..)
    · rcases o with _ | v
      · exact hafter
      · exact .map _ hafter
    · exact Covers.append hdefinition fun c => hrest.map _

end Outline
end Lexicon
