import Lexicon.Proofs.Compile.Mirrors

/-!
# What a compilation does to the tables

`Effect M t t'` says what can happen to the tables in a compilation that works at addresses in `M`:
nodes are made mandatory there, metadata are recorded there, and nothing else changes. A compilation
that mirrors another one has no other effect (`Mirrors.effect`), and the two have the same results
on tables that hold the same at related addresses (`Mirrors.run`).
-/

namespace Lexicon

/-- The options of a node are as before, or it has been made mandatory: nothing stands in its place
and it was not made optional. -/
inductive PathOptions.Marked : Option PathOptions → Option PathOptions → Prop
  | same (o : Option PathOptions) : Marked o o
  | made {o : Option PathOptions} (hoverride : (o.getD {}).override? = none)
    (hrequired : (o.getD {}).required? ≠ some false) :
    Marked o (some { o.getD {} with required? := some true })

theorem PathOptions.Marked.trans {o o' o'' : Option PathOptions} (h : Marked o o')
    (h' : Marked o' o'') : Marked o o'' := by
  cases h with
  | same => exact h'
  | made hoverride hrequired =>
    cases h' with
    | same => exact .made hoverride hrequired
    | made _ _ => exact .made hoverride hrequired

/-- Options that say the same are the same: what is made mandatory says something. -/
theorem PathOptions.Marked.eq_of_getD {o o' : Option PathOptions} (h : Marked o o')
    (hsame : o'.getD {} = o.getD {}) : o' = o := by
  cases h with
  | same => rfl
  | made _ _ =>
    cases o with
    | none => exact nomatch congrArg PathOptions.required? hsame
    | some o => exact congrArg some hsame

theorem PathOptions.Marked.ne_none {o o' : Option PathOptions} (h : Marked o o') (ho : o ≠ none) :
    o' ≠ none := by
  cases h with
  | same => exact ho
  | made _ _ => exact Option.some_ne_none _

/-- Nothing else of the options changes. -/
theorem PathOptions.Marked.unchanged {o o' : Option PathOptions} (h : Marked o o') :
    (o'.getD {}).override? = (o.getD {}).override? ∧
      (o'.getD {}).metadata? = (o.getD {}).metadata? ∧
      (o'.getD {}).additional = (o.getD {}).additional := by
  cases h with
  | same => exact ⟨rfl, rfl, rfl⟩
  | made _ _ => exact ⟨rfl, rfl, rfl⟩

theorem PathOptions.Marked.of_required?_ne {o o' : Option PathOptions} (h : Marked o o')
    (hne : (o'.getD {}).required? ≠ (o.getD {}).required?) :
    (o'.getD {}).required? = some true ∧ (o.getD {}).required? ≠ some false ∧
      (o.getD {}).override? = none := by
  cases h with
  | same => exact absurd rfl hne
  | made hoverride hrequired => exact ⟨rfl, hrequired, hoverride⟩

def PathOptions.mandatory (o : PathOptions) : PathOptions :=
  if o.required? = some false then o else { o with required? := some true }

theorem PathOptions.mandatory_mandatory (o : PathOptions) : o.mandatory.mandatory = o.mandatory := by
  unfold mandatory
  split
  · rfl
  · exact if_neg (by simp)

theorem PathOptions.override?_mandatory (o : PathOptions) : o.mandatory.override? = o.override? := by
  unfold mandatory
  split <;> rfl

theorem PathOptions.required?_mandatory_if (required : Bool) (o : PathOptions) :
    (if required then o.mandatory else o).required? =
      if required ∧ o.required? ≠ some false then some true else o.required? := by
  cases required with
  | false => simp
  | true =>
    unfold mandatory
    by_cases hrequired : o.required? = some false <;> simp [hrequired]

theorem OptionTable.get?_markRequired (t : OptionTable) (a q : Address) :
    (t.markRequired a).get? q = if a = q then some (t.getD a).mandatory else t.get? q :=
  OptionTable.get?_insert t a q _

theorem OptionTable.getD_markRequired (t : OptionTable) (a q : Address) :
    (t.markRequired a).getD q = if a = q then (t.getD a).mandatory else t.getD q := by
  change ((t.markRequired a).get? q).getD {} = _
  rw [get?_markRequired]
  split <;> rfl

theorem OptionTable.marked_markRequired {t : OptionTable} {a : Address} (h : t.override? a = none)
    (q : Address) : PathOptions.Marked (t.get? q) ((t.markRequired a).get? q) := by
  rw [OptionTable.get?_markRequired]
  split
  · rename_i haq
    subst haq
    unfold PathOptions.mandatory
    split
    · rename_i hrequired
      -- Options that say something are there already.
      cases hget : t.get? a with
      | none =>
        rw [OptionTable.getD, hget] at hrequired
        cases hrequired
      | some o =>
        have ho : t.getD a = o := by rw [OptionTable.getD, hget, Option.getD_some]
        rw [ho]
        exact .same _
    · rename_i hrequired
      exact .made h hrequired
  · exact .same _

namespace Compile

variable {α β : Type} {c c' : Compile α} {R : Address → Address → Prop} {M : Address → Prop}
  {a b : Address} {t t' t'' : Tables}

theorem runOn_requireNode (a : Address) (t : Tables) :
    (requireNode a).runOn t =
      (.ok (), if (t.options.override? a).isNone then
        { t with options := t.options.markRequired a } else t) := by
  rw [requireNode, runOn_bind_of_ok (runOn_override? a)]
  split <;> rfl

theorem runOn_requireNode_of_none (h : t.options.override? a = none) :
    (requireNode a).runOn t = (.ok (), { t with options := t.options.markRequired a }) := by
  rw [runOn_requireNode, h, Option.isNone_none, if_pos rfl]

theorem runOn_requireNode_of_some {o : Override} (h : t.options.override? a = some o) :
    (requireNode a).runOn t = (.ok (), t) := by
  rw [runOn_requireNode, h, Option.isNone_some, if_neg Bool.false_ne_true]

structure Effect (M : Address → Prop) (t t' : Tables) : Prop where
  marked : ∀ q, PathOptions.Marked (t.options.get? q) (t'.options.get? q)
  options : ∀ q, ¬ M q → t'.options.get? q = t.options.get? q
  metadata : ∀ q, ¬ M q → t'.metadata.find? q = t.metadata.find? q
  sortedOptions : t.options.entries.Sorted → t'.options.entries.Sorted
  sortedMetadata : t.metadata.Sorted → t'.metadata.Sorted

namespace Effect

theorem refl (M : Address → Prop) (t : Tables) : Effect M t t where
  marked _ := .same _
  options _ _ := rfl
  metadata _ _ := rfl
  sortedOptions := id
  sortedMetadata := id

theorem trans (h : Effect M t t') (h' : Effect M t' t'') : Effect M t t'' where
  marked q := (h.marked q).trans (h'.marked q)
  options q hq := (h'.options q hq).trans (h.options q hq)
  metadata q hq := (h'.metadata q hq).trans (h.metadata q hq)
  sortedOptions := h'.sortedOptions ∘ h.sortedOptions
  sortedMetadata := h'.sortedMetadata ∘ h.sortedMetadata

theorem override? (h : Effect M t t') (q : Address) :
    t'.options.override? q = t.options.override? q :=
  (h.marked q).unchanged.1

theorem mono {N : Address → Prop} (h : Effect M t t') (hMN : ∀ q, M q → N q) : Effect N t t' :=
  { h with
    options := fun q hq => h.options q fun hM => hq (hMN q hM)
    metadata := fun q hq => h.metadata q fun hM => hq (hMN q hM) }

theorem requireNode (ha : M a) (t : Tables) : Effect M t ((requireNode a).runOn t).2 := by
  rw [runOn_requireNode]
  split
  · rename_i hoverride
    rw [Option.isNone_iff_eq_none] at hoverride
    have hne : ∀ q, ¬ M q → a ≠ q := fun q hq he => hq (he ▸ ha)
    exact {
      marked := OptionTable.marked_markRequired hoverride
      options := fun q hq => by rw [OptionTable.get?_markRequired, if_neg (hne q hq)]
      metadata := fun _ _ => rfl
      sortedOptions := fun hsorted => Entries.sorted_put hsorted _ _
      sortedMetadata := id }
  · exact .refl M t

theorem recordMetadata (ha : M a) (entries : Entries Json) (t : Tables) :
    Effect M t ((recordMetadata a entries).runOn t).2 where
  marked _ := .same _
  options _ _ := rfl
  metadata q hq := by
    have hne : a ≠ q := fun he => hq (he ▸ ha)
    rw [runOn_recordMetadata, Entries.find?_put, if_neg hne]
  sortedOptions := id
  sortedMetadata hsorted := Entries.sorted_put hsorted _ _

end Effect

/-- A compilation works at the addresses that its mirror image relates. -/
theorem Mirrors.effect (h : Mirrors R c c') (t : Tables) :
    Effect (fun q => ∃ q', R q q') t (c.runOn t).2 := by
  induction h generalizing t with
  | pure _ | throw _ | malformed _ _ | optionsAt _ => exact .refl _ t
  | requireNode h => exact .requireNode ⟨_, h⟩ t
  | recordMetadata h entries => exact .recordMetadata ⟨_, h⟩ entries t
  | @bind _ _ c _ f _ _ _ hc hf =>
    have hfirst := hc t
    rw [runOn_bind]
    cases hrun : c.runOn t with
    | mk result s =>
      rw [hrun] at hfirst
      cases result with
      | error e => exact hfirst
      | ok x => exact hfirst.trans (hf x s)

/-! ## Two runs -/

def Corresponds (R : Address → Address → Prop) (t t' : Tables) : Prop :=
  ∀ a b, R a b → t.options.get? a = t'.options.get? b ∧ t.metadata.find? a = t'.metadata.find? b

/-- The results are the same; an error may name related addresses. -/
inductive SameResult {α : Type} (R : Address → Address → Prop) :
    Except CompileError α → Except CompileError α → Prop
  | same (r : Except CompileError α) : SameResult R r r
  | malformed {a b : Address} (h : R a b) (e : DefinitionError) :
    SameResult R (.error (.malformed a e)) (.error (.malformed b e))

theorem Corresponds.getD (h : Corresponds R t t') (hab : R a b) :
    t.options.getD a = t'.options.getD b := by
  unfold OptionTable.getD
  rw [(h a b hab).1]

theorem eq_iff_of_biUnique {a' b' : Address} (hR : Relator.BiUnique R) (h : R a b) (h' : R a' b') :
    a = a' ↔ b = b' := by
  constructor
  · rintro rfl
    exact hR.2 h h'
  · rintro rfl
    exact hR.1 h h'

theorem Corresponds.requireNode (hR : Relator.BiUnique R) (h : Corresponds R t t') (hab : R a b) :
    Corresponds R ((requireNode a).runOn t).2 ((requireNode b).runOn t').2 := by
  have hoverride : t.options.override? a = t'.options.override? b := by
    unfold OptionTable.override?
    rw [h.getD hab]
  rw [runOn_requireNode, runOn_requireNode, hoverride]
  split
  · intro q q' hq
    refine ⟨?_, (h q q' hq).2⟩
    simp only [OptionTable.get?_markRequired, h.getD hab, (h q q' hq).1,
      eq_iff_of_biUnique hR hab hq]
  · exact h

theorem Corresponds.recordMetadata (hR : Relator.BiUnique R) (h : Corresponds R t t') (hab : R a b)
    (entries : Entries Json) :
    Corresponds R ((recordMetadata a entries).runOn t).2 ((recordMetadata b entries).runOn t').2 := by
  intro q q' hq
  refine ⟨(h q q' hq).1, ?_⟩
  simp only [runOn_recordMetadata, Entries.find?_put, (h a b hab).2, (h q q' hq).2,
    eq_iff_of_biUnique hR hab hq]

/-- Mirror images give the same result on tables that correspond, and the tables still do then. -/
theorem Mirrors.run (hR : Relator.BiUnique R) (h : Mirrors R c c') (ht : Corresponds R t t') :
    SameResult R (c.runOn t).1 (c'.runOn t').1 ∧
      Corresponds R (c.runOn t).2 (c'.runOn t').2 := by
  induction h generalizing t t' with
  | pure _ | throw _ => exact ⟨.same _, ht⟩
  | malformed h e => exact ⟨.malformed h e, ht⟩
  | optionsAt h =>
    rw [runOn_optionsAt, runOn_optionsAt, ht.getD h]
    exact ⟨.same _, ht⟩
  | requireNode h =>
    refine ⟨?_, ht.requireNode hR h⟩
    rw [runOn_requireNode, runOn_requireNode]
    exact .same _
  | recordMetadata h entries => exact ⟨.same _, ht.recordMetadata hR h entries⟩
  | @bind _ _ c c' f f' _ _ hc hf =>
    obtain ⟨hresult, hafter⟩ := hc ht
    rw [runOn_bind, runOn_bind]
    cases hrun : c.runOn t with
    | mk result s =>
      cases hrun' : c'.runOn t' with
      | mk result' s' =>
        rw [hrun, hrun'] at hresult hafter
        cases hresult with
        | malformed h e => exact ⟨.malformed h e, hafter⟩
        | same =>
          cases result with
          | error e => exact ⟨.same _, hafter⟩
          | ok x => exact hf x hafter

end Compile
end Lexicon
