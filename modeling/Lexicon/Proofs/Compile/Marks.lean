import Lexicon.Compile.Document
import Lexicon.Proofs.Compile.Facets

/-!
# Where a compilation marks nodes

A compilation changes the options only by marking nodes as mandatory. The compiler of a node marks
nodes below it and no others (`marksOnly_compileAt`): the node itself is marked by its parent.
-/

namespace Lexicon.Compile

open Address (Below Within)

variable {α β : Type} {c : Compile α} {f : α → Compile β} {M N : Address → Prop} {a : Address}
  {ctx : Context} {d : Definition}

def MarksOnly (M : Address → Prop) (c : Compile α) : Prop :=
  ∀ t q, ¬ M q → (c.runOn t).2.options.getD q = t.options.getD q

theorem MarksOnly.mono (h : MarksOnly M c) (hMN : ∀ q, M q → N q) : MarksOnly N c :=
  fun t q hq => h t q fun hM => hq (hMN q hM)

theorem MarksOnly.getD_eq {t t' : Tables} {result : Except CompileError α} {q : Address}
    (h : MarksOnly M c) (hrun : c.runOn t = (result, t')) (hq : ¬ M q) :
    t'.options.getD q = t.options.getD q := by
  have hframe := h t q hq
  rwa [hrun] at hframe

theorem marksOnly_pure (x : α) : MarksOnly M (pure x : Compile α) := fun _ _ _ => rfl

theorem marksOnly_throw (e : CompileError) : MarksOnly M (throw e : Compile α) := fun _ _ _ => rfl

theorem marksOnly_lift (x : Except CompileError α) : MarksOnly M (liftM x : Compile α) := by
  cases x with
  | error e => exact marksOnly_throw e
  | ok y => exact marksOnly_pure y

theorem marksOnly_bind (hc : MarksOnly M c) (hf : ∀ x, MarksOnly M (f x)) :
    MarksOnly M (c >>= f) := by
  intro t q hq
  have hfirst := hc t q hq
  rw [runOn_bind]
  cases hrun : c.runOn t with
  | mk result s =>
    rw [hrun] at hfirst
    cases result with
    | error e => exact hfirst
    | ok x => exact (hf x s q hq).trans hfirst

theorem marksOnly_map (g : α → β) (hc : MarksOnly M c) :
    MarksOnly M (c >>= fun x => pure (g x)) :=
  marksOnly_bind hc fun x => marksOnly_pure (g x)

theorem marksOnly_optionsAt (a : Address) : MarksOnly M (optionsAt a) := fun _ _ _ => rfl

theorem marksOnly_override? (a : Address) : MarksOnly M (override? a) := fun _ _ _ => rfl

theorem marksOnly_recordMetadata (a : Address) (entries : Entries Json) :
    MarksOnly M (recordMetadata a entries) := fun _ _ _ => rfl

theorem marksOnly_markRequired (ha : M a) : MarksOnly M (markRequired a) := by
  intro t q hq
  have hne : a ≠ q := fun he => hq (he ▸ ha)
  simp only [runOn_markRequired, OptionTable.markRequired, OptionTable.getD,
    OptionTable.get?_insert, if_neg hne]

theorem marksOnly_requireNode (ha : M a) : MarksOnly M (requireNode a) := by
  refine marksOnly_bind (marksOnly_override? a) fun o => ?_
  split
  · exact marksOnly_markRequired ha
  · exact marksOnly_pure ()

theorem marksOnly_requireIf (required : Bool) (ha : M a) :
    MarksOnly M (if required then requireNode a else pure ()) := by
  cases required with
  | true => exact marksOnly_requireNode ha
  | false => exact marksOnly_pure ()

theorem marksOnly_extend (v : Validator) (description : Option String) (default : Option Json)
    (a : Address) : MarksOnly M (extend v description default a) := by
  rw [extend_eq]
  refine marksOnly_bind (marksOnly_optionsAt a) fun o => ?_
  cases o.metadata? with
  | none => exact marksOnly_pure _
  | some metadata =>
    exact marksOnly_bind (marksOnly_recordMetadata a metadata) fun _ => marksOnly_pure _

theorem marksOnly_view {σ : Type} (held : Option σ) (read : Entries Json → Except Mismatch σ) :
    MarksOnly M (view held read d a) := by
  cases held with
  | some s => exact marksOnly_pure s
  | none => exact marksOnly_lift _

theorem marksOnly_recordAll (a : Address) (metadata : List (Entries Json)) :
    MarksOnly M (metadata.foldlM (fun _ entries => recordMetadata a entries) ()) := by
  induction metadata with
  | nil => exact marksOnly_pure ()
  | cons entries rest ih =>
    rw [List.foldlM_cons]
    exact marksOnly_bind (marksOnly_recordMetadata a entries) fun _ => ih

theorem marksOnly_string (ctx : Context) (s : StringShape) (a : Address) :
    MarksOnly M (Compile.string ctx s a) := by
  rw [string_eq]
  exact marksOnly_map _ (marksOnly_recordAll a s.metadata)

/-- The first of some properties shares no address with another one. -/
theorem not_within_first {e p : String × Definition} {rest : Entries Definition} (ha : a ≠ "")
    (hdistinct : Entries.Distinct (e :: rest)) (hparts : ∀ p ∈ e :: rest, '.' ∉ p.1.toList)
    (hp : p ∈ rest) {q : Address} (hq : Within (a.property p.1) q) : ¬ Within (a.property e.1) q :=
  fun h => Entries.ne_of_distinct_cons hdistinct hp (Address.eq_of_within_property ha
    (hparts p (List.mem_cons_of_mem _ hp)) (hparts e (List.mem_cons_self ..)) hq h)

def MarksBelow (apply : Apply) : Prop :=
  ∀ compiler ctx d a, a ≠ "" → MarksOnly (Below a) (apply compiler ctx d a)

section
variable {apply : Apply} (ctx) (happly : MarksBelow apply) (ha : a ≠ "")
include happly ha

theorem marksOnly_dispatchWith : MarksOnly (Below a) (dispatchWith apply ctx d a) :=
  marksOnly_bind (marksOnly_lift _) fun compiler => happly compiler ctx d a ha

theorem marksOnly_extendedWith : MarksOnly (Below a) (extendedWith apply ctx d a) :=
  marksOnly_bind (marksOnly_dispatchWith _ happly ha) fun v => marksOnly_extend v _ _ a

theorem marksOnly_nodeWith : MarksOnly (Below a) (nodeWith apply ctx d a) := by
  refine marksOnly_bind (marksOnly_override? a) fun o => ?_
  rcases o with _ | _ | v
  · exact marksOnly_map some (marksOnly_extendedWith _ happly ha)
  · exact marksOnly_pure none
  · exact marksOnly_pure (some v)

theorem marksOnly_nodeWith_property (key : String) :
    MarksOnly (Within (a.property key)) (nodeWith apply ctx d (a.property key)) :=
  (marksOnly_nodeWith _ happly (Address.property_ne ha key)).mono fun _ => .inr

/-- The fields of an object mark nodes at and below its properties. -/
theorem marksOnly_fieldsWith (s : ObjectShape Definition)
    (properties : List (String × Definition)) :
    MarksOnly (fun q => ∃ e ∈ properties, Within (a.property e.1) q)
      (fieldsWith apply ctx s a properties) := by
  induction properties with
  | nil => exact marksOnly_pure []
  | cons e rest ih =>
    obtain ⟨key, d⟩ := e
    have hself : ∀ q, Within (a.property key) q →
        ∃ e ∈ (key, d) :: rest, Within (a.property e.1) q :=
      fun q hq => ⟨(key, d), List.mem_cons_self .., hq⟩
    have hrest := ih.mono (N := fun q => ∃ e ∈ (key, d) :: rest, Within (a.property e.1) q) <| by
      rintro q ⟨e, he, hq⟩
      exact ⟨e, List.mem_cons_of_mem _ he, hq⟩
    have hnode := (marksOnly_nodeWith_property ctx (d := d) happly ha key).mono hself
    rw [fieldsWith_cons]
    refine marksOnly_bind (marksOnly_requireIf _ (hself _ (Address.within_self _))) fun _ =>
      marksOnly_bind hnode fun v => ?_
    cases v with
    | none => exact hrest
    | some v => exact marksOnly_map _ hrest

theorem marksOnly_objectWith (s : ObjectShape Definition) :
    MarksOnly (Below a) (objectWith apply ctx s a) := by
  have hfields := marksOnly_fieldsWith ctx happly ha s s.properties
  refine marksOnly_bind (hfields.mono fun q ⟨e, _, hq⟩ => Address.below_of_within ha hq) fun _ => ?_
  exact marksOnly_map _ (marksOnly_optionsAt a)

theorem marksOnly_arrayWith (s : ArrayShape Definition) :
    MarksOnly (Below a) (arrayWith apply ctx s a) :=
  marksOnly_map _ ((marksOnly_nodeWith_property _ happly ha _).mono fun _ =>
    Address.below_of_within ha)

theorem marksOnly_branchWith (compiler : TypeCompiler) (reference : String) :
    MarksOnly (Below a) (branchWith apply ctx compiler reference a) := by
  refine marksOnly_bind (marksOnly_override? a) fun o => ?_
  rcases o with _ | _ | v
  · exact marksOnly_bind (happly compiler ctx _ a ha) fun v =>
      marksOnly_map some (marksOnly_extend v none none a)
  · exact marksOnly_pure none
  · exact marksOnly_pure (some v)

theorem marksOnly_branchesWith (compiler : TypeCompiler) (index : Nat) (refs : List String) :
    MarksOnly (fun q => ∃ i, index ≤ i ∧ i < index + refs.length ∧ Within (a.branch i) q)
      (branchesWith apply ctx compiler a index refs) := by
  induction refs generalizing index with
  | nil => exact marksOnly_pure []
  | cons reference rest ih =>
    have hbranch := marksOnly_branchWith ctx happly (Address.branch_ne ha index) compiler
      reference
    have hlength : (reference :: rest).length = rest.length + 1 := List.length_cons
    have hrest := (ih (index + 1)).mono
      (N := fun q => ∃ i, index ≤ i ∧ i < index + (reference :: rest).length ∧
        Within (a.branch i) q)
      fun q ⟨i, hi, hi', hq⟩ => ⟨i, by omega, by omega, hq⟩
    refine marksOnly_bind
      (hbranch.mono fun q hq => ⟨index, Nat.le_refl _, by omega, .inr hq⟩) fun v => ?_
    cases v with
    | none => exact hrest
    | some v => exact marksOnly_map _ hrest

theorem marksOnly_unionWith (s : UnionShape) : MarksOnly (Below a) (unionWith apply ctx s a) := by
  refine marksOnly_bind (marksOnly_lift _) fun compiler => marksOnly_map _ ?_
  exact (marksOnly_branchesWith _ happly ha compiler 0 s.refs).mono
    fun q ⟨i, _, _, hq⟩ => Address.below_of_within ha hq

theorem marksOnly_targetWith : MarksOnly (Below a) (targetWith apply ctx d a) := by
  have hdispatch := marksOnly_dispatchWith ctx (d := d) happly ha
  cases d with
  | record s =>
    obtain ⟨description, key, body⟩ := s
    cases body with
    | none => exact marksOnly_pure _
    | some s =>
      exact marksOnly_bind (marksOnly_lift _) fun compiler =>
        marksOnly_map _ (happly compiler ctx _ a ha)
  | _ => exact marksOnly_map _ hdispatch

theorem marksOnly_refWith (s : RefShape) : MarksOnly (Below a) (refWith apply ctx s a) := by
  unfold refWith
  split
  · refine marksOnly_bind (marksOnly_lift _) fun target => ?_
    refine marksOnly_bind (marksOnly_lift _) fun inner => ?_
    cases inner with
    | none => exact marksOnly_pure _
    | some inner => exact marksOnly_targetWith _ happly ha
  · exact marksOnly_pure _

theorem marksOnly_typedWith (type : NodeType) :
    MarksOnly (Below a) (typedWith apply ctx type d a) := by
  cases type with
  | string => exact marksOnly_bind (marksOnly_view _ _) fun s => marksOnly_string ctx s a
  | blob =>
    refine marksOnly_bind (marksOnly_view _ _) fun s => ?_
    exact marksOnly_bind (marksOnly_recordMetadata _ _) fun _ => marksOnly_pure _
  | array => exact marksOnly_bind (marksOnly_view _ _) fun s => marksOnly_arrayWith _ happly ha s
  | object => exact marksOnly_bind (marksOnly_view _ _) fun s => marksOnly_objectWith _ happly ha s
  | union => exact marksOnly_bind (marksOnly_view _ _) fun s => marksOnly_unionWith _ happly ha s
  | ref => exact marksOnly_bind (marksOnly_view _ _) fun s => marksOnly_refWith _ happly ha s
  | _ => exact marksOnly_bind (marksOnly_view _ _) fun s => marksOnly_pure _

end

theorem marksOnly_applyWith {apply : Apply} (happly : MarksBelow apply) :
    MarksBelow (applyWith apply) := by
  intro compiler ctx d a ha
  cases compiler with
  | anything => exact marksOnly_pure _
  | constant v => exact marksOnly_pure v
  | unsupported tag => exact marksOnly_throw _
  | node type => exact marksOnly_typedWith _ happly ha type

theorem marksOnly_compileAt (n : Nat) : MarksBelow (compileAt n) := by
  induction n with
  | zero => exact fun _ _ _ _ _ => marksOnly_throw _
  | succ n ih => exact marksOnly_applyWith ih

section
variable {apply : Apply} (ctx) (happly : MarksBelow apply) (ha : a ≠ "")
include happly ha

theorem marksOnly_objectFacetWith (shape : Option (ObjectShape Definition)) :
    MarksOnly (Within a) (objectFacetWith apply ctx shape a) := by
  cases shape with
  | none => exact marksOnly_pure _
  | some s =>
    refine marksOnly_bind (marksOnly_override? a) fun o => ?_
    rcases o with _ | _ | v
    · refine marksOnly_bind (marksOnly_markRequired (.inl rfl)) fun _ => ?_
      refine marksOnly_bind (marksOnly_lift _) fun compiler => ?_
      refine marksOnly_bind ?_ fun v => marksOnly_extend v _ _ a
      exact (happly compiler ctx _ a ha).mono fun _ => .inr
    · exact marksOnly_pure _
    · exact marksOnly_pure v

theorem marksOnly_schemaFacetWith (schema : Option Definition) :
    MarksOnly (Within a) (schemaFacetWith apply ctx schema a) := by
  cases schema with
  | none => exact marksOnly_pure _
  | some d =>
    refine marksOnly_bind (marksOnly_requireNode (.inl rfl)) fun _ => ?_
    exact marksOnly_map _ ((marksOnly_nodeWith _ happly ha).mono fun _ => .inr)

/-- Facets mark nodes at and below their own addresses. -/
theorem marksOnly_facetsWith (slots : List (String × Option Definition)) :
    MarksOnly (fun q => ∃ slot ∈ slots, Within (a.property slot.1) q)
      (facetsWith apply ctx a slots) := by
  induction slots with
  | nil => exact marksOnly_pure []
  | cons slot rest ih =>
    have hfacet := marksOnly_schemaFacetWith ctx happly (Address.property_ne ha slot.1) slot.2
    refine marksOnly_bind (hfacet.mono fun q hq => ⟨slot, List.mem_cons_self .., hq⟩) fun v => ?_
    refine marksOnly_map _ (ih.mono ?_)
    rintro q ⟨slot', hslot, hq⟩
    exact ⟨slot', List.mem_cons_of_mem _ hslot, hq⟩

theorem marksOnly_bodyFacetsWith (body : Option (Body Definition)) :
    MarksOnly (Below a) (bodyFacetsWith apply ctx body a) := by
  cases body with
  | none => exact marksOnly_pure _
  | some b =>
    have hschema := marksOnly_schemaFacetWith ctx happly
      (Address.property_ne ha "schema") b.schema
    exact marksOnly_map _ (hschema.mono fun _ => Address.below_of_within ha)

theorem marksOnly_envelopeWith : MarksOnly (Below a) (envelopeWith apply ctx d a) := by
  have hobject : ∀ shape key,
      MarksOnly (Below a) (objectFacetWith apply ctx shape (a.property key)) := fun shape key =>
    (marksOnly_objectFacetWith _ happly (Address.property_ne ha key) shape).mono fun _ =>
      Address.below_of_within ha
  have hbody : ∀ body key,
      MarksOnly (Below a) (bodyFacetsWith apply ctx body (a.property key)) := fun body key =>
    (marksOnly_bodyFacetsWith _ happly (Address.property_ne ha key) body).mono fun _ hq =>
      Address.below_of_within ha (.inr hq)
  cases d with
  | record s => exact marksOnly_map _ (hobject _ _)
  | query s => exact marksOnly_bind (hobject _ _) fun _ => marksOnly_map _ (hbody _ _)
  | procedure s =>
    exact marksOnly_bind (hobject _ _) fun _ => marksOnly_bind (hbody _ _) fun _ =>
      marksOnly_map _ (hbody _ _)
  | subscription s =>
    have hmessage := marksOnly_schemaFacetWith ctx happly
      (Address.property_ne (Address.property_ne ha "message") "schema")
      (s.message.bind Message.schema)
    refine marksOnly_bind (hobject _ _) fun _ => marksOnly_map _ (hmessage.mono fun q hq => ?_)
    exact Address.below_of_within ha (.inr (Address.below_of_within (Address.property_ne ha _) hq))
  | _ => exact marksOnly_pure none

theorem marksOnly_definitionWith : MarksOnly (Below a) (definitionWith apply ctx d a) := by
  refine marksOnly_bind (marksOnly_envelopeWith _ happly ha) fun c => ?_
  cases c with
  | some c => exact marksOnly_pure c
  | none => exact marksOnly_map _ (marksOnly_extendedWith _ happly ha)

end
end Lexicon.Compile
