import Lexicon.Proofs.Compile.Correctness
import Lexicon.Proofs.Compile.Definitions

/-!
# Compiling once more with the options that came back

A compilation that has succeeded does the same again on the options that it has left, and adds
nothing further to them (`Document.compile_returned`). `Settles M c` says so of a compilation that
reads options at addresses in `M`. It holds of two steps one after the other if the second one marks
nothing that the first one has read (`settles_bind`), and nodes apart from each other share no
addresses.
-/

namespace Lexicon

open Address (Below IsPart Within)

namespace Compile

variable {α β : Type} {c : Compile α} {f : α → Compile β} {M N W : Address → Prop} {a : Address}
  {d : Definition} {ctx : Context} {apply : Apply}

/-- Where the options in `M` are as the compilation has left them, it does the same. -/
def Settles (M : Address → Prop) (c : Compile α) : Prop :=
  ∀ t t' x, c.runOn t = (.ok x, t') →
    ∀ u : OptionTable, (∀ q, M q → u.getD q = t'.options.getD q) →
      ∃ u', c.runOn ⟨u, t.metadata⟩ = (.ok x, ⟨u', t'.metadata⟩) ∧ ∀ q, u'.getD q = u.getD q

theorem Settles.mono (h : Settles M c) (hMN : ∀ q, M q → N q) : Settles N c :=
  fun t t' x hrun u hu => h t t' x hrun u fun q hq => hu q (hMN q hq)

theorem settles_pure (x : α) : Settles M (pure x : Compile α) := by
  intro t t' y hrun u _
  cases hrun
  exact ⟨u, rfl, fun _ => rfl⟩

/-- The second step must not mark what the first one has read. -/
theorem settles_bind (hc : Settles N c) (hN : ∀ q, N q → M q) (hmarks : ∀ x, MarksOnly W (f x))
    (hW : ∀ q, N q → ¬ W q) (hf : ∀ x, Settles M (f x)) : Settles M (c >>= f) := by
  intro t t' y hrun u hu
  obtain ⟨x, s, hfirst, hsecond⟩ := runOn_bind_eq_ok.mp hrun
  obtain ⟨v, hv, hsame⟩ := hc t s x hfirst u fun q hq =>
    (hu q (hN q hq)).trans ((hmarks x).getD_eq hsecond (hW q hq))
  obtain ⟨w, hw, hsame'⟩ := hf x s t' y hsecond v fun q hq => (hsame q).trans (hu q hq)
  refine ⟨w, ?_, fun q => (hsame' q).trans (hsame q)⟩
  rw [runOn_bind_of_ok hv]
  exact hw

/-- A second step that marks nothing. -/
theorem settles_then (hc : Settles M c) (hmarks : ∀ x, MarksOnly (fun _ => False) (f x))
    (hf : ∀ x, Settles M (f x)) : Settles M (c >>= f) :=
  settles_bind hc (fun _ => id) hmarks (fun _ _ => id) hf

theorem settles_map (g : α → β) (hc : Settles M c) : Settles M (c >>= fun x => pure (g x)) :=
  settles_then hc (fun _ => marksOnly_pure _) fun _ => settles_pure _

theorem settles_lift_bind {x : Except CompileError α} (hf : ∀ y, x = .ok y → Settles M (f y)) :
    Settles M (liftM x >>= f) := by
  cases x with
  | error e => exact nofun
  | ok y => exact hf y rfl

theorem settles_optionsAt (ha : M a) : Settles M (optionsAt a) := by
  intro t t' o hrun u hu
  cases hrun
  refine ⟨u, ?_, fun _ => rfl⟩
  rw [runOn_optionsAt, hu a ha]

theorem settles_override? (ha : M a) : Settles M (override? a) := by
  rw [override?_eq]
  exact settles_map _ (settles_optionsAt ha)

theorem settles_recordMetadata (a : Address) (entries : Entries Json) :
    Settles M (recordMetadata a entries) := by
  intro t t' x hrun u _
  cases hrun
  exact ⟨u, rfl, fun _ => rfl⟩

theorem settles_extend (v : Validator) (description : Option String) (default : Option Json)
    (ha : M a) : Settles M (extend v description default a) := by
  rw [extend_eq]
  refine settles_then (settles_optionsAt ha) (fun o => ?_) fun o => ?_
  · cases o.metadata? with
    | none => exact marksOnly_pure _
    | some metadata => exact marksOnly_map _ (marksOnly_recordMetadata a metadata)
  · cases o.metadata? with
    | none => exact settles_pure _
    | some metadata => exact settles_map _ (settles_recordMetadata a metadata)

/-- A node that has been made mandatory stays so. -/
theorem settles_requireNode (ha : M a) : Settles M (requireNode a) := by
  intro t t' x hrun u hu
  have hself := hu a ha
  cases hoverride : t.options.override? a with
  | some o =>
    rw [runOn_requireNode_of_some hoverride] at hrun
    cases hrun
    have hkept : u.override? a = some o := by rw [OptionTable.override?, hself, ← hoverride]; rfl
    exact ⟨u, runOn_requireNode_of_some hkept, fun _ => rfl⟩
  | none =>
    rw [runOn_requireNode_of_none hoverride] at hrun
    cases hrun
    rw [OptionTable.getD_markRequired, if_pos rfl] at hself
    have hkept : u.override? a = none := by
      rw [OptionTable.override?, hself, PathOptions.override?_mandatory]
      exact hoverride
    refine ⟨u.markRequired a, runOn_requireNode_of_none hkept, fun q => ?_⟩
    rw [OptionTable.getD_markRequired]
    split
    · rename_i haq
      rw [← haq, hself, PathOptions.mandatory_mandatory]
    · rfl

theorem settles_requireIf (required : Bool) (ha : M a) :
    Settles M (if required then requireNode a else pure ()) := by
  cases required with
  | true => exact settles_requireNode ha
  | false => exact settles_pure ()

theorem settles_string (ctx : Context) (s : StringShape) (a : Address) :
    Settles M (Compile.string ctx s a) := by
  rw [string_eq]
  refine settles_map _ ?_
  generalize s.metadata = metadata
  induction metadata with
  | nil => exact settles_pure ()
  | cons entries rest ih =>
    rw [List.foldlM_cons]
    exact settles_then (settles_recordMetadata a entries) (fun _ => marksOnly_recordAll a rest)
      fun _ => ih

def Settling (apply : Apply) : Prop :=
  ∀ {ctx : Context} {d : Definition} {a : Address}, ctx.Plain → d.All Definition.Plain → a ≠ "" →
    Settles (Within a) (dispatchWith apply ctx d a)

section
variable (happly : Settling apply) (hctx : ctx.Plain) (ha : a ≠ "")
include happly hctx ha

theorem settles_extendedWith (hd : d.All Definition.Plain) :
    Settles (Within a) (extendedWith apply ctx d a) :=
  settles_then (happly hctx hd ha) (fun v => marksOnly_extend v _ _ a) fun v =>
    settles_extend v _ _ (Address.within_self a)

theorem settles_targetWith {target : Definition} (hd : target.All Definition.Plain) :
    Settles (Within a) (targetWith apply ctx target a) := by
  have hself := happly hctx hd ha
  cases target with
  | record s =>
    obtain ⟨description, key, body⟩ := s
    cases body with
    | none => exact settles_pure _
    | some body =>
      have hmem : body ∈ (Definition.record ⟨description, key, some body⟩).shapes := by
        simp [Definition.shapes]
      rw [targetWith_record_eq (.of_builtin hctx.registry)]
      exact settles_map _ (happly hctx (hd.shape hmem (hd.here.shape hmem)) ha)
  | _ => exact settles_map _ hself

theorem settles_refWith (s : RefShape) : Settles (Within a) (refWith apply ctx s a) := by
  unfold refWith
  split
  · refine settles_lift_bind fun target htarget => settles_lift_bind fun inner hinner => ?_
    cases inner with
    | none => exact settles_pure _
    | some inner =>
      obtain ⟨rfl, _⟩ := Context.follow?_eq_some hinner
      have hd := hctx.plain _ _ (Context.definition?_of_lookup htarget)
      exact settles_targetWith happly (hctx.enter _) ha hd
  · exact settles_pure _

end

section
variable (happly : Settling apply) (hmarks : MarksBelow apply) (hctx : ctx.Plain) (ha : a ≠ "")
include happly hmarks hctx ha

/-- What stands in place of a node is read before anything below is marked. -/
theorem settles_nodeWith (hd : d.All Definition.Plain) :
    Settles (Within a) (nodeWith apply ctx d a) := by
  have hself : Settles (· = a) (override? a) := settles_override? rfl
  refine settles_bind hself (fun q => .inl) (W := Below a) (fun o => ?_)
    (fun q hq h => Address.ne_of_below h hq) fun o => ?_
  · rcases o with _ | _ | v
    · exact marksOnly_map some (marksOnly_extendedWith ctx hmarks ha)
    · exact marksOnly_pure none
    · exact marksOnly_pure (some v)
  · rcases o with _ | _ | v
    · exact settles_map some (settles_extendedWith happly hctx ha hd)
    · exact settles_pure none
    · exact settles_pure (some v)

/-- A property is made mandatory before it is compiled, and what comes after it is apart. -/
theorem settles_fieldsWith (s : ObjectShape Definition) {properties : List (String × Definition)}
    (hd : ∀ e ∈ properties, e.2.All Definition.Plain) (hdistinct : Entries.Distinct properties)
    (hparts : ∀ e ∈ properties, '.' ∉ e.1.toList) :
    Settles (fun q => ∃ e ∈ properties, Within (a.property e.1) q)
      (fieldsWith apply ctx s a properties) := by
  induction properties with
  | nil => exact settles_pure []
  | cons e rest ih =>
    obtain ⟨key, d⟩ := e
    have hkey := Address.property_ne ha key
    have hself : ∀ q, Within (a.property key) q →
        ∃ e ∈ (key, d) :: rest, Within (a.property e.1) q :=
      fun q hq => ⟨(key, d), List.mem_cons_self .., hq⟩
    have hothers : ∀ q, Within (a.property key) q → ¬ ∃ e ∈ rest, Within (a.property e.1) q :=
      fun _ hq ⟨_, he, hq'⟩ => not_within_first ha hdistinct hparts he hq' hq
    have hrest := (ih (fun e he => hd e (List.mem_cons_of_mem _ he)) hdistinct.tail
      fun e he => hparts e (List.mem_cons_of_mem _ he)).mono
        (N := fun q => ∃ e ∈ (key, d) :: rest, Within (a.property e.1) q) <| by
      rintro q ⟨e, he, hq⟩
      exact ⟨e, List.mem_cons_of_mem _ he, hq⟩
    have hrequire := settles_requireIf (M := (· = a.property key)) (s.required.contains key) rfl
    have hnode := settles_nodeWith happly hmarks hctx hkey (hd (key, d) (List.mem_cons_self ..))
    have hrestMarks := marksOnly_fieldsWith ctx hmarks ha s rest
    rw [fieldsWith_cons]
    refine settles_bind hrequire (fun q hq => hself q (.inl hq))
      (W := fun q => Below (a.property key) q ∨ ∃ e ∈ rest, Within (a.property e.1) q)
      (fun _ => ?_) ?_ fun _ => settles_bind hnode hself (fun v => ?_) hothers fun v => ?_
    · refine marksOnly_bind ((marksOnly_nodeWith ctx hmarks hkey).mono fun _ => .inl) fun v => ?_
      cases v with
      | none => exact hrestMarks.mono fun _ => .inr
      | some v => exact (marksOnly_map _ hrestMarks).mono fun _ => .inr
    · rintro q rfl (hq | hq)
      · exact Address.ne_of_below hq rfl
      · exact hothers _ (Address.within_self _) hq
    · cases v with
      | none => exact hrestMarks
      | some v => exact marksOnly_map _ hrestMarks
    · cases v with
      | none => exact hrest
      | some v => exact settles_map _ hrest

theorem settles_objectWith {s : ObjectShape Definition} (hs : s ∈ d.shapes)
    (hd : d.All Definition.Plain) : Settles (Within a) (objectWith apply ctx s a) := by
  have hproperties : ∀ e ∈ s.properties, e.2.All Definition.Plain := fun e he =>
    hd.inside (Definition.mem_parts.mpr (.inl ⟨s, hs, List.mem_map_of_mem he⟩))
  have hfields := settles_fieldsWith happly hmarks hctx ha s hproperties
    (hd.here.distinct s hs) (hd.here.parts s hs)
  rw [objectWith_eq]
  refine settles_then (hfields.mono fun q ⟨e, _, hq⟩ => .inr (Address.below_of_within ha hq))
    (fun _ => marksOnly_map _ (marksOnly_optionsAt a)) fun _ => ?_
  exact settles_map _ (settles_optionsAt (Address.within_self a))

theorem settles_arrayWith {s : ArrayShape Definition} (hd : s.items.All Definition.Plain) :
    Settles (Within a) (arrayWith apply ctx s a) :=
  settles_map _ ((settles_nodeWith happly hmarks hctx (Address.element_ne ha) hd).mono fun _ hq =>
    .inr (Address.below_of_within ha hq))

theorem settles_branchWith (reference : String) :
    Settles (Within a) (branchWith apply ctx (.node .ref) reference a) := by
  rw [branchWith_eq_nodeWith (require_ref hctx.registry)]
  exact settles_nodeWith happly hmarks hctx ha (Definition.plain_ref _)

theorem settles_branchesWith (index : Nat) (refs : List String) :
    Settles (fun q => ∃ i, index ≤ i ∧ Within (a.branch i) q)
      (branchesWith apply ctx (.node .ref) a index refs) := by
  induction refs generalizing index with
  | nil => exact settles_pure []
  | cons reference rest ih =>
    have hb := Address.branch_ne ha index
    have hself : ∀ q, Within (a.branch index) q → ∃ i, index ≤ i ∧ Within (a.branch i) q :=
      fun q hq => ⟨index, Nat.le_refl _, hq⟩
    have hothers : ∀ q, Within (a.branch index) q →
        ¬ ∃ i, index + 1 ≤ i ∧ Within (a.branch i) q := by
      rintro q hq ⟨i, hi, hq'⟩
      have := Address.eq_of_within_branch hq hq'
      omega
    have hrest := (ih (index + 1)).mono (N := fun q => ∃ i, index ≤ i ∧ Within (a.branch i) q)
      fun q ⟨i, hi, hq⟩ => ⟨i, by omega, hq⟩
    have hrestMarks := (marksOnly_branchesWith ctx hmarks ha (.node .ref) (index + 1) rest).mono
      (N := fun q => ∃ i, index + 1 ≤ i ∧ Within (a.branch i) q)
      fun _ ⟨i, hi, _, hq⟩ => ⟨i, hi, hq⟩
    refine settles_bind (settles_branchWith happly hmarks hctx hb reference) hself (fun v => ?_)
      hothers fun v => ?_
    · cases v with
      | none => exact hrestMarks
      | some v => exact marksOnly_map _ hrestMarks
    · cases v with
      | none => exact hrest
      | some v => exact settles_map _ hrest

theorem settles_unionWith (s : UnionShape) : Settles (Within a) (unionWith apply ctx s a) := by
  have hrequire : ctx.registry.require "ref" = .ok (.node .ref) := by
    rw [hctx.registry]
    rfl
  unfold unionWith
  rw [hrequire]
  exact settles_map _ ((settles_branchesWith happly hmarks hctx ha 0 s.refs).mono
    fun q ⟨i, _, hq⟩ => .inr (Address.below_of_within ha hq))

theorem settles_bodyWith (hd : d.All Definition.Plain) :
    Settles (Within a) (bodyWith apply ctx d a) := by
  cases d with
  | object s | params s =>
    exact settles_objectWith happly hmarks hctx ha (by simp [Definition.shapes]) hd
  | array s =>
    have hitems : s.items.All Definition.Plain :=
      hd.inside (Definition.mem_parts.mpr (.inr (by simp [Definition.nodes])))
    exact settles_arrayWith happly hmarks hctx ha hitems
  | union s => exact settles_unionWith happly hmarks hctx ha s
  | ref s => exact settles_refWith happly hctx ha s
  | string s => exact settles_string ctx s a
  | blob s => exact settles_map _ (settles_recordMetadata _ _)
  | _ => exact settles_pure _

end

theorem settling_compileAt (n : Nat) : Settling (compileAt n) := by
  induction n with
  | zero =>
    intro ctx d a _ _ _
    exact settles_lift_bind fun _ _ => nofun
  | succ n ih =>
    intro ctx d a hctx hd ha
    rw [compileAt, dispatchWith_eq_bodyWith hctx.registry hd.here.toProper]
    exact settles_bodyWith ih (marksOnly_compileAt n) hctx ha hd

/-! ## Top-level definitions -/

section
variable (happly : Settling apply) (hmarks : MarksBelow apply) (hctx : ctx.Plain) (ha : a ≠ "")
include happly hmarks hctx ha

theorem settles_schemaFacetWith {schema : Option Definition}
    (hd : ∀ d ∈ schema, d.All Definition.Plain) :
    Settles (Within a) (schemaFacetWith apply ctx schema a) := by
  cases schema with
  | none => exact settles_pure _
  | some d =>
    have hself : Settles (· = a) (requireNode a) := settles_requireNode rfl
    refine settles_bind hself (fun q => .inl) (W := Below a) (fun _ => ?_)
      (fun q hq h => Address.ne_of_below h hq) fun _ => ?_
    · exact marksOnly_map _ (marksOnly_nodeWith ctx hmarks ha)
    · exact settles_map _ (settles_nodeWith happly hmarks hctx ha (hd d rfl))

theorem settles_facetsWith {slots : List (String × Option Definition)}
    (hd : ∀ slot ∈ slots, ∀ d ∈ slot.2, d.All Definition.Plain)
    (hapart : slots.Pairwise fun x y =>
      x.1.toList.takeWhile (· ≠ '.') ≠ y.1.toList.takeWhile (· ≠ '.')) :
    Settles (Within a) (facetsWith apply ctx a slots) := by
  induction slots with
  | nil => exact settles_pure []
  | cons slot rest ih =>
    obtain ⟨hfirst, hothers⟩ := List.pairwise_cons.mp hapart
    have hfacet := settles_schemaFacetWith happly hmarks hctx (Address.property_ne ha slot.1)
      (hd slot (List.mem_cons_self ..))
    refine settles_bind hfacet (fun q hq => .inr (Address.below_of_within ha hq))
      (fun v => marksOnly_map _ (marksOnly_facetsWith ctx hmarks ha rest)) ?_ fun v => ?_
    · rintro q hq ⟨slot', hslot, hq'⟩
      exact hfirst slot' hslot (Address.firstPart_eq_of_within_property ha hq hq')
    · exact settles_map _ (ih (fun slot' hslot => hd slot' (List.mem_cons_of_mem _ hslot)) hothers)

theorem settles_definitionWith (hd : d.All Definition.Plain) :
    Settles (Within a) (definitionWith apply ctx d a) := by
  cases hprimary : d.isPrimary with
  | false =>
    rw [definitionWith_of_not_primary _ _ hprimary]
    exact settles_map _ (settles_extendedWith happly hctx ha hd)
  | true =>
    have hslots : ∀ slot ∈ d.slots, ∀ e ∈ slot.2, e.All Definition.Plain := by
      rintro ⟨name, schema⟩ hslot e he
      obtain rfl : schema = some e := he
      exact hd.slot (fun h => h.shape) hslot
    obtain ⟨c, hc⟩ := Definition.exists_envelope hprimary
    rw [definitionWith_of_envelope hc (.of_builtin hctx.registry)]
    exact settles_map _ (settles_facetsWith happly hmarks hctx ha hslots d.slots_apart)

end

theorem settles_definitionAt {nsid : String} {e : String × Definition}
    (hctx : ctx.Plain) (hname : e.1 ≠ "") (hd : e.2.All Definition.Plain) :
    Settles (Within e.1) (definitionAt ctx nsid e) := by
  have hdefinition : Settles (Within e.1) ((ctx.enter ⟨nsid, e.1⟩).compileDefinition e.2 e.1) :=
    settles_definitionWith (settling_compileAt _) (marksOnly_compileAt _) (hctx.enter _) hname hd
  have hself : Settles (· = e.1) (override? e.1) := settles_override? rfl
  refine settles_bind hself (fun q => .inl) (W := Below e.1) (fun o => ?_)
    (fun q hq h => Address.ne_of_below h hq) fun o => ?_
  · rcases o with _ | _ | v
    · exact marksOnly_map _ (marksOnly_definitionWith _ (marksOnly_compileAt _) hname)
    · exact marksOnly_pure none
    · exact marksOnly_pure _
  · rcases o with _ | _ | v
    · exact settles_map _ hdefinition
    · exact settles_pure none
    · exact settles_pure _

section
variable {nsid : String} {defs : Entries Definition} {compiled compiled' : Entries Compiled}
  {t t' t'' : Tables}

/-- By itself a definition compiles to the same once more, and leaves the same. -/
theorem Compiles.again {e : String × Definition} (h : Compiles ctx nsid defs t compiled t')
    (hctx : ctx.Plain) (he : e ∈ defs) (hname : e.1 ≠ "") (hd : e.2.All Definition.Plain) :
    ∃ s, (definitionAt ctx nsid e).runOn ⟨t'.options, t.metadata⟩ = (.ok (compiled.find? e.1), s) ∧
      (∀ q, s.options.getD q = t'.options.getD q) ∧
        ∀ q, Within e.1 q → s.metadata.find? q = t'.metadata.find? q := by
  obtain ⟨s, hs, hagree⟩ := h.each e he
  rw [corresponds_self_iff] at hagree
  obtain ⟨u, hu, hsame⟩ := settles_definitionAt hctx hname hd _ _ _ hs t'.options
    fun q hq => by rw [OptionTable.getD, OptionTable.getD, (hagree q hq).1]
  exact ⟨_, hu, hsame, fun q hq => (hagree q hq).2⟩

/-- So it does among the others. -/
theorem Compiles.again_among {e : String × Definition} (h : Compiles ctx nsid defs t compiled t')
    (h' : Compiles ctx nsid defs ⟨t'.options, t.metadata⟩ compiled' t'') (hctx : ctx.Plain)
    (he : e ∈ defs) (hname : e.1 ≠ "") (hd : e.2.All Definition.Plain) :
    compiled'.find? e.1 = compiled.find? e.1 ∧
      ∀ q, Within e.1 q → t''.options.getD q = t'.options.getD q ∧
        t''.metadata.find? q = t'.metadata.find? q := by
  obtain ⟨s, hs, hoptions, hmetadata⟩ := h.again hctx he hname hd
  obtain ⟨s', hs', hagree⟩ := h'.each e he
  obtain ⟨hresult, rfl⟩ := Prod.mk.inj (hs.symm.trans hs')
  rw [corresponds_self_iff] at hagree
  refine ⟨(Except.ok.inj hresult).symm, fun q hq => ⟨?_, ?_⟩⟩
  · rw [← hoptions q, OptionTable.getD, OptionTable.getD, (hagree q hq).1]
  · rw [← hmetadata q hq, (hagree q hq).2]

/-- Compiling definitions once more, on the options that they have left, gives the same. -/
theorem settles_definitions (hctx : ctx.Plain) (hd : ∀ e ∈ defs, e.2.All Definition.Plain)
    (hdistinct : defs.Distinct) (hparts : ∀ e ∈ defs, IsPart e.1) (hsorted : t.metadata.Sorted)
    (hrun : (definitions ctx nsid defs).runOn t = (.ok compiled, t')) :
    ∃ u, (definitions ctx nsid defs).runOn ⟨t'.options, t.metadata⟩ =
        (.ok compiled, ⟨u, t'.metadata⟩) ∧ ∀ q, u.get? q = t'.options.get? q := by
  have hcompiles := compiles_definitions hdistinct hparts hrun
  obtain ⟨compiled', t'', hrun'⟩ := exists_definitions hdistinct hparts fun e he => by
    obtain ⟨s, hs, -⟩ := hcompiles.again hctx he (hparts e he).1 (hd e he)
    exact ⟨_, s, hs⟩
  have hcompiles' := compiles_definitions hdistinct hparts hrun'
  have hagain := fun e he => hcompiles.again_among hcompiles' hctx he (hparts e he).1 (hd e he)
  have hcompiled : compiled' = compiled := by
    rw [hcompiles'.entries, List.filterMap_congr fun e he => by rw [(hagain e he).1]]
    exact hcompiles.entries.symm
  have hmetadata : t''.metadata = t'.metadata := by
    refine Entries.eq_of_sorted (hcompiles'.effect.sortedMetadata hsorted)
      (hcompiles.effect.sortedMetadata hsorted) fun q => ?_
    by_cases hq : ∃ e ∈ defs, Within e.1 q
    · obtain ⟨e, he, hq⟩ := hq
      exact ((hagain e he).2 q hq).2
    · exact (hcompiles'.effect.metadata q hq).trans (hcompiles.effect.metadata q hq).symm
  refine ⟨t''.options, ?_, fun q => (hcompiles'.effect.marked q).eq_of_getD ?_⟩
  · rw [hrun', hcompiled, ← hmetadata]
  · by_cases hq : ∃ e ∈ defs, Within e.1 q
    · obtain ⟨e, he, hq⟩ := hq
      exact ((hagain e he).2 q hq).1
    · rw [hcompiles'.effect.options q hq]

end

end Compile

namespace Document

/-- The options that come back from a compilation are a fixpoint: a document compiles to the same
once more with them, and they come back as they are. -/
theorem compile_returned_table {doc : Document} {o : CompileOptions} {c : CompiledLexicon}
    (hdoc : doc.Proper) (hdict : Dictionary.All Proper o.lexicons) (hkeys : doc.PlainKeys)
    (hdictKeys : Dictionary.All PlainKeys o.lexicons) (hregistry : o.registry = {})
    (hc : doc.compile o = .ok c) :
    ∃ c', doc.compile { o with table := c.table } = .ok c' ∧ c'.id = c.id ∧ c'.defs = c.defs ∧
      c'.metadata = c.metadata ∧ (∀ q, c'.table.get? q = c.table.get? q) ∧
      (o.table.entries.Sorted → c' = c) := by
  have hctx := Context.plain_register hregistry hdoc hdict hkeys hdictKeys
  obtain ⟨compiled, t, hrun, rfl⟩ := compile_eq_ok.mp hc
  obtain ⟨u, hrun', hsame⟩ := Compile.settles_definitions hctx (hkeys.plain hdoc) hdoc.distinct
    hkeys.names Entries.sorted_nil hrun
  refine ⟨⟨doc.id, compiled, t.metadata, u⟩, compile_eq_ok.mpr ⟨compiled, _, hrun', rfl⟩, rfl, rfl,
    rfl, hsame, fun hsorted => ?_⟩
  have heffect := (Compile.compiles_definitions hdoc.distinct hkeys.names hrun).effect
  have heffect' := (Compile.compiles_definitions hdoc.distinct hkeys.names hrun').effect
  have htable : u = t.options := congrArg OptionTable.mk (Entries.eq_of_sorted
    (heffect'.sortedOptions (heffect.sortedOptions hsorted)) (heffect.sortedOptions hsorted) hsame)
  rw [htable]

def titled : CompileOptions where
  lexicons := [("app.photo", photo)]
  table := .ofList [("main.cover.title", { metadata? := some [("label", .string "Title")] })]

theorem compile_returned_table_sample :
    ∃ c, album.compile titled = .ok c ∧ titled.table.required? "main.cover" = none ∧
      c.table.required? "main.cover" = some true ∧
      album.compile { titled with table := c.table } = .ok c := by
  obtain ⟨c, hc, hrequired⟩ : ∃ c, album.compile titled = .ok c ∧
      c.table.required? "main.cover" = some true := ⟨_, rfl, rfl⟩
  obtain ⟨c', hc', -, -, -, -, hsame⟩ := compile_returned_table (proper_of_ofJson ofJson_album)
    (Dictionary.all_singleton proper_photo : Dictionary.All _ titled.lexicons) plainKeys_album
    (Dictionary.all_singleton plainKeys_photo) rfl hc
  rw [hsame (List.pairwise_singleton _ _)] at hc'
  exact ⟨c, hc, rfl, hrequired, hc'⟩

end Document
end Lexicon
