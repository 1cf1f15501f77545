import Lexicon.Proofs.Compile.Run
import Lexicon.Proofs.Entries

/-!
# What a compilation consults

`Consults A O c` says that the compilation `c` reads and marks options only at addresses in `A`, and
that the metadata that it records by itself are in `O`. Options at other addresses are ignored
(`Consults.ignores`), and metadata that are given and recorded stay so unless they are in `O`
(`Consults.noted`).

`Visits A O L c` says in addition that `c` extends the nodes at the addresses in `L`. Extending a
node records what is given at it after what its compiler records by itself, so then `O` need not
have the metadata of that node.
-/

namespace Lexicon.Compile

variable {α β : Type} {c : Compile α} {f : α → Compile β} {A B : Address → Prop}
  {O O' : Address → String → Prop} {a p : Address}

inductive Consults (A : Address → Prop) (O : Address → String → Prop) :
    {α : Type} → Compile α → Prop
  | pure {α : Type} (x : α) : Consults A O (pure x : Compile α)
  | throw {α : Type} (e : CompileError) : Consults A O (throw e : Compile α)
  | bind {α β : Type} {c : Compile α} {f : α → Compile β} (hc : Consults A O c)
    (hf : ∀ x, Consults A O (f x)) : Consults A O (c >>= f)
  | optionsAt {a : Address} (ha : A a) : Consults A O (optionsAt a)
  | markRequired {a : Address} (ha : A a) : Consults A O (markRequired a)
  | extend {a : Address} (v : Validator) (description : Option String) (default : Option Json)
    (ha : A a) : Consults A O (extend v description default a)
  | record {a : Address} {entries : Entries Json} (hown : ∀ key ∈ entries.keys, O a key) :
    Consults A O (recordMetadata a entries)

namespace Consults

theorem mono (h : Consults A O c) (hAB : ∀ a, A a → B a) (hO : ∀ a key, O a key → O' a key) :
    Consults B O' c := by
  induction h with
  | pure x => exact .pure x
  | throw e => exact .throw e
  | bind _ _ hc hf => exact .bind hc hf
  | optionsAt ha => exact .optionsAt (hAB _ ha)
  | markRequired ha => exact .markRequired (hAB _ ha)
  | extend v description default ha => exact .extend v description default (hAB _ ha)
  | record hown => exact .record fun key hkey => hO _ key (hown key hkey)

theorem map (g : α → β) (hc : Consults A O c) : Consults A O (c >>= fun x => Pure.pure (g x)) :=
  .bind hc fun x => .pure (g x)

theorem override? (ha : A a) : Consults A O (Compile.override? a) := by
  rw [override?_eq]
  exact .bind (.optionsAt ha) fun o => .pure o.override?

theorem requireNode (ha : A a) : Consults A O (requireNode a) := by
  refine .bind (.override? ha) fun o => ?_
  split
  · exact .markRequired ha
  · exact .pure ()

end Consults

structure AgreeOff (p : Address) (t t' : Tables) : Prop where
  metadata : t.metadata = t'.metadata
  options : ∀ q, q ≠ p → t.options.get? q = t'.options.get? q

def Ignores (p : Address) (c : Compile α) : Prop :=
  ∀ t t', AgreeOff p t t' →
    (c.runOn t).1 = (c.runOn t').1 ∧ AgreeOff p (c.runOn t).2 (c.runOn t').2

theorem AgreeOff.getD {t t' : Tables} (h : AgreeOff p t t') (ha : a ≠ p) :
    t.options.getD a = t'.options.getD a := by
  unfold OptionTable.getD
  rw [h.options a ha]

theorem ignores_pure (x : α) : Ignores p (pure x : Compile α) := fun _ _ h => ⟨rfl, h⟩

theorem ignores_throw (e : CompileError) : Ignores p (throw e : Compile α) := fun _ _ h => ⟨rfl, h⟩

theorem ignores_bind (hc : Ignores p c) (hf : ∀ x, Ignores p (f x)) : Ignores p (c >>= f) := by
  intro t t' h
  obtain ⟨hresult, hafter⟩ := hc t t' h
  rw [runOn_bind, runOn_bind]
  cases ht : c.runOn t with
  | mk result s =>
    cases ht' : c.runOn t' with
    | mk result' s' =>
      rw [ht, ht'] at hresult hafter
      obtain rfl : result = result' := hresult
      cases result with
      | error e => exact ⟨rfl, hafter⟩
      | ok x => exact hf x s s' hafter

theorem ignores_optionsAt (ha : a ≠ p) : Ignores p (optionsAt a) := by
  intro t t' h
  rw [runOn_optionsAt, runOn_optionsAt, h.getD ha]
  exact ⟨rfl, h⟩

theorem ignores_markRequired (ha : a ≠ p) : Ignores p (markRequired a) := by
  intro t t' h
  refine ⟨rfl, h.metadata, fun q hq => ?_⟩
  simp only [runOn_markRequired, OptionTable.markRequired, OptionTable.get?_insert, h.getD ha,
    h.options q hq]

theorem ignores_recordMetadata (a : Address) (entries : Entries Json) :
    Ignores p (recordMetadata a entries) := by
  intro t t' h
  refine ⟨rfl, ?_, h.options⟩
  simp only [runOn_recordMetadata, h.metadata]

theorem ignores_extend (v : Validator) (description : Option String) (default : Option Json)
    (ha : a ≠ p) : Ignores p (extend v description default a) := by
  rw [extend_eq]
  refine ignores_bind (ignores_optionsAt ha) fun o => ?_
  cases o.metadata? with
  | none => exact ignores_pure _
  | some metadata =>
    exact ignores_bind (ignores_recordMetadata a metadata) fun _ => ignores_pure _

/-- Options are ignored where they are not consulted. -/
theorem Consults.ignores (h : Consults A O c) (hp : ¬ A p) : Ignores p c := by
  induction h with
  | pure x => exact ignores_pure x
  | throw e => exact ignores_throw e
  | bind _ _ hc hf => exact ignores_bind hc hf
  | optionsAt ha => exact ignores_optionsAt fun he => hp (he ▸ ha)
  | markRequired ha => exact ignores_markRequired fun he => hp (he ▸ ha)
  | extend v description default ha =>
    exact ignores_extend v description default fun he => hp (he ▸ ha)
  | record _ => exact ignores_recordMetadata _ _

theorem options_extend (v : Validator) (description : Option String) (default : Option Json)
    (a : Address) (t : Tables) :
    ((extend v description default a).runOn t).2.options = t.options := by
  rw [extend_eq, runOn_bind_of_ok (runOn_optionsAt a)]
  cases (t.options.getD a).metadata? <;> rfl

/-- Options stay as they are where they are not consulted. -/
theorem Consults.options (h : Consults A O c) (hp : ¬ A p) (t : Tables) :
    (c.runOn t).2.options.get? p = t.options.get? p := by
  induction h generalizing t with
  | pure _ | throw _ | optionsAt _ | record _ => rfl
  | @bind _ _ c f _ _ hc hf =>
    have hfirst := hc t
    rw [runOn_bind]
    cases hrun : c.runOn t with
    | mk result s =>
      rw [hrun] at hfirst
      cases result with
      | error e => exact hfirst
      | ok x => exact (hf x s).trans hfirst
  | @markRequired a ha =>
    have hne : a ≠ p := fun he => hp (he ▸ ha)
    simp only [runOn_markRequired, OptionTable.markRequired, OptionTable.get?_insert, if_neg hne]
  | @extend a v description default _ => rw [options_extend]

structure Given (p : Address) (metadata : Entries Json) (t : Tables) : Prop where
  metadata : (t.options.getD p).metadata? = some metadata
  unreplaced : ∀ q, t.options.override? q = none

def Noted (p : Address) (key : String) (value : Json) (t : Tables) : Prop :=
  ∃ recorded, t.metadata.find? p = some recorded ∧ recorded.find? key = some value

section
variable {given : Entries Json} {key : String} {value : Json} {t : Tables}

theorem getD_markRequired (t : OptionTable) (a q : Address) :
    ((t.markRequired a).getD q).metadata? = (t.getD q).metadata? ∧
      ((t.markRequired a).getD q).override? = (t.getD q).override? := by
  unfold OptionTable.markRequired
  by_cases hq : a = q
  · have hget : ∀ o, (t.insert a o).getD q = o := fun o => by
      rw [OptionTable.getD, OptionTable.get?_insert, if_pos hq]
      rfl
    rw [hget, hq]
    split <;> exact ⟨rfl, rfl⟩
  · have hget : ∀ o, (t.insert a o).getD q = t.getD q := fun o => by
      rw [OptionTable.getD, OptionTable.get?_insert, if_neg hq]
      rfl
    rw [hget]
    exact ⟨rfl, rfl⟩

/-- What is given stays given. -/
theorem Consults.keeps (h : Consults A O c) (ht : Given p given t) :
    Given p given (c.runOn t).2 := by
  induction h generalizing t with
  | pure _ | throw _ | optionsAt _ => exact ht
  | record _ => exact ⟨ht.metadata, ht.unreplaced⟩
  | @bind _ _ c f _ _ hc hf =>
    have hfirst := hc ht
    rw [runOn_bind]
    cases hrun : c.runOn t with
    | mk result s =>
      rw [hrun] at hfirst
      cases result with
      | error e => exact hfirst
      | ok x => exact hf x hfirst
  | @markRequired a _ =>
    refine ⟨?_, fun q => ?_⟩
    · exact (getD_markRequired t.options a p).1.trans ht.metadata
    · exact (getD_markRequired t.options a q).2.trans (ht.unreplaced q)
  | @extend a v description default _ =>
    have hoptions := options_extend v description default a t
    exact ⟨hoptions ▸ ht.metadata, hoptions ▸ ht.unreplaced⟩

theorem noted_recordMetadata {entries : Entries Json} (hentries : entries.Distinct)
    (hfind : entries.find? key = some value) :
    Noted p key value ((recordMetadata p entries).runOn t).2 := by
  refine ⟨((t.metadata.find? p).getD []).insertAll entries, ?_, ?_⟩
  · rw [runOn_recordMetadata, Entries.find?_put, if_pos rfl]
  · exact Entries.find?_insertAll_of_find? hentries hfind

theorem noted_recordMetadata_of_not_mem {entries : Entries Json} {a : Address}
    (hother : a = p → key ∉ entries.keys) (h : Noted p key value t) :
    Noted p key value ((recordMetadata a entries).runOn t).2 := by
  obtain ⟨recorded, hrecorded, hfind⟩ := h
  by_cases hp : a = p
  · refine ⟨((t.metadata.find? a).getD []).insertAll entries, ?_, ?_⟩
    · rw [runOn_recordMetadata, Entries.find?_put, if_pos hp]
    · rw [Entries.find?_insertAll_of_not_mem (hother hp), hp, hrecorded]
      exact hfind
  · refine ⟨recorded, ?_, hfind⟩
    rw [runOn_recordMetadata, Entries.find?_put, if_neg hp]
    exact hrecorded

variable (hgiven : given.Distinct) (hfind : given.find? key = some value)
include hgiven hfind

/-- Extending a node records what is given at it, and elsewhere leaves what is recorded. -/
theorem noted_extend (v : Validator) (description : Option String) (default : Option Json)
    (ht : Given p given t) (h : a = p ∨ Noted p key value t) :
    Noted p key value ((extend v description default a).runOn t).2 := by
  have hrun : ((extend v description default a).runOn t).2 =
      match (t.options.getD a).metadata? with
      | some metadata => ((recordMetadata a metadata).runOn t).2
      | none => t := by
    rw [extend_eq, runOn_bind_of_ok (runOn_optionsAt a)]
    cases (t.options.getD a).metadata? <;> rfl
  rw [hrun]
  by_cases hp : a = p
  · subst hp
    rw [ht.metadata]
    exact noted_recordMetadata hgiven hfind
  · cases (t.options.getD a).metadata? with
    | none => exact h.resolve_left hp
    | some metadata =>
      exact noted_recordMetadata_of_not_mem (fun he => absurd he hp) (h.resolve_left hp)

/-- Metadata that are given and recorded stay so, unless the compilation has others of its own. -/
theorem Consults.noted (h : Consults A O c) (hkey : ¬ O p key) (ht : Given p given t)
    (hnoted : Noted p key value t) : Noted p key value (c.runOn t).2 := by
  induction h generalizing t with
  | pure _ | throw _ | optionsAt _ | markRequired _ => exact hnoted
  | @bind _ _ c f hconsults _ hc hf =>
    have hafter := hconsults.keeps ht
    have hfirst := hc ht hnoted
    rw [runOn_bind]
    cases hrun : c.runOn t with
    | mk result s =>
      rw [hrun] at hafter hfirst
      cases result with
      | error e => exact hfirst
      | ok x => exact hf x hafter hfirst
  | extend v description default _ =>
    exact noted_extend hgiven hfind v description default ht (.inr hnoted)
  | record hown =>
    refine noted_recordMetadata_of_not_mem (fun he hmem => ?_) hnoted
    exact hkey (he ▸ hown key hmem)

end

/-- The compilation consults addresses in `A` only, and if it succeeds with nothing omitted or
replaced, it has extended the nodes at all addresses in `L`. What it has recorded by itself is in
`O`, or what is given there has been recorded after it. -/
inductive Visits (A : Address → Prop) :
    {α : Type} → (O : Address → String → Prop) → (L : Address → Prop) → Compile α → Prop
  | consults {α : Type} {O : Address → String → Prop} {c : Compile α} (h : Consults A O c) :
    Visits A O (fun _ => False) c
  | throw {α : Type} (O : Address → String → Prop) (L : Address → Prop) (e : CompileError) :
    Visits A O L (throw e : Compile α)
  | bind {α β : Type} {O : Address → String → Prop} {L L' : Address → Prop} {c : Compile α}
    {f : α → Compile β} (hc : Visits A O L c) (hf : ∀ x, Visits A O L' (f x)) :
    Visits A O (fun q => L q ∨ L' q) (c >>= f)
  | override {β : Type} {O : Address → String → Prop} {L : Address → Prop}
    {f : Option Override → Compile β} {a : Address} (ha : A a)
    (hsome : ∀ o, Consults A (fun _ _ => True) (f (some o))) (hnone : Visits A O L (f none)) :
    Visits A O L (override? a >>= f)
  | extend {O : Address → String → Prop} {L : Address → Prop} {c : Compile Validator} {a : Address}
    (hc : Visits A O L c) (description : Option String) (default : Option Json) (ha : A a) :
    Visits A (fun q key => O q key ∧ q ≠ a) (fun q => L q ∨ q = a)
      (c >>= fun v => extend v description default a)
  | weaken {α : Type} {O O' : Address → String → Prop} {L L' : Address → Prop} {c : Compile α}
    (h : Visits A O L c) (hO : ∀ q key, O q key → O' q key) (hL : ∀ q, L' q → L q) :
    Visits A O' L' c

namespace Visits

variable {L L' : Address → Prop}

theorem mono (h : Visits A O L c) (hAB : ∀ q, A q → B q) (hO : ∀ q key, O q key → O' q key)
    (hL : ∀ q, L' q → L q) : Visits B O' L' c := by
  refine .weaken ?_ hO hL
  clear hO hL
  induction h with
  | consults h => exact .consults (h.mono hAB fun _ _ => id)
  | throw O L e => exact .throw O L e
  | bind _ _ hc hf => exact .bind hc hf
  | override ha hsome _ hnone =>
    exact .override (hAB _ ha) (fun o => (hsome o).mono hAB fun _ _ => id) hnone
  | extend _ description default ha hc => exact .extend hc description default (hAB _ ha)
  | weaken _ hO hL h => exact .weaken h hO hL

/-- A computation in front visits nothing by itself. -/
theorem after (hc : Consults A O c) (hf : ∀ x, Visits A O L (f x)) : Visits A O L (c >>= f) :=
  (Visits.bind (.consults hc) hf).weaken (fun _ _ => id) fun _ => .inr

theorem map (g : α → β) (hc : Visits A O L c) :
    Visits A O L (c >>= fun x => Pure.pure (g x)) :=
  (Visits.bind hc fun x => .consults (.pure (g x))).weaken (fun _ _ => id) fun _ => .inl

/-- A computation that fails visits everything. -/
theorem lift_bind {x : Except CompileError α} (h : ∀ y, x = .ok y → Visits A O L (f y)) :
    Visits A O L (liftM x >>= f) := by
  cases x with
  | error e => exact .throw O L e
  | ok y => exact h y rfl

theorem toConsults (h : Visits A O L c) : Consults A (fun _ _ => True) c := by
  induction h with
  | consults h => exact h.mono (fun _ => id) fun _ _ _ => trivial
  | throw _ _ e => exact .throw e
  | bind _ _ hc hf => exact .bind hc hf
  | override ha hsome _ hnone =>
    refine .bind (.override? ha) fun o => ?_
    cases o with
    | none => exact hnone
    | some o => exact hsome o
  | extend _ description default ha hc =>
    exact .bind hc fun v => .extend v description default ha
  | weaken _ _ _ h => exact h

/-- Metadata given at a node that is visited are recorded. -/
theorem noted {given : Entries Json} {key : String} {value : Json} (h : Visits A O L c)
    (hdistinct : given.Distinct) (hfind : given.find? key = some value) (hkey : ¬ O p key)
    {t t' : Tables} {x : α} (ht : Given p given t) (hrun : c.runOn t = (.ok x, t'))
    (hp : L p ∨ Noted p key value t) : Noted p key value t' := by
  induction h generalizing t t' with
  | consults h =>
    have hnoted := h.noted hdistinct hfind hkey ht (hp.resolve_left id)
    rwa [hrun] at hnoted
  | throw _ _ e => exact nomatch hrun
  | bind hc hf ihc ihf =>
    obtain ⟨y, s, hy, hrest⟩ := runOn_bind_eq_ok.mp hrun
    have hgiven := hc.toConsults.keeps ht
    rw [hy] at hgiven
    rcases hp with (hp | hp) | hp
    · exact ihf y hkey hgiven hrest (.inr (ihc hkey ht hy (.inl hp)))
    · exact ihf y hkey hgiven hrest (.inl hp)
    · exact ihf y hkey hgiven hrest (.inr (ihc hkey ht hy (.inr hp)))
  | override ha hsome hnone ih =>
    rw [runOn_bind_of_ok (runOn_override? _), ht.unreplaced] at hrun
    exact ih hkey ht hrun hp
  | @extend O L c a hc description default ha ih =>
    obtain ⟨v, s, hv, hrest⟩ := runOn_bind_eq_ok.mp hrun
    have hgiven := hc.toConsults.keeps ht
    rw [hv] at hgiven
    have hnoted : a = p ∨ Noted p key value s := by
      by_cases ha : p = a
      · exact .inl ha.symm
      · exact .inr (ih (fun hO => hkey ⟨hO, ha⟩) ht hv (hp.imp_left fun h => h.resolve_right ha))
    have hafter := noted_extend hdistinct hfind v description default hgiven hnoted
    rwa [hrest] at hafter
  | weaken _ hO hL ih => exact ih (fun h => hkey (hO p key h)) ht hrun (hp.imp_left (hL p))

end Visits
end Lexicon.Compile
