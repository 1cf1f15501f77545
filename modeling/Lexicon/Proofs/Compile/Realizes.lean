import Lexicon.Compile.Node
import Lexicon.Proofs.Conformance
import Lexicon.Proofs.Entries

/-!
# Validators that do what definitions say

`Realizes dict here d v` says that the kind of the validator `v` admits what conforms to `d`, that
its default is the one of `d`, and that it minds a missing value unless `d` does not. Each way to
build the validator of a node from those of the nodes inside it keeps this: one statement for each
form of a definition.
-/

namespace Lexicon

def Kind.isAny {ν : Type} : Kind ν → Bool
  | .any | .unknown => true
  | _ => false

theorem Validator.admits_iff (v : Validator) (input : Option Json) :
    v.admits input = true ↔
      (∀ y, input.or v.default = some y → (v.nullable = true ∧ y = .null) ∨ v.kind.admits y = true) ∧
      (input.or v.default = none → v.kind.isAny = true ∨ v.optional = true) := by
  obtain ⟨kind, optional, nullable, default, description⟩ := v
  unfold admits
  cases input.or default with
  | some y =>
    have hnull : y.isNull = true ↔ y = .null := by cases y <;> simp [Json.isNull]
    simp [hnull]
  | none => cases kind <;> simp [Kind.isAny]

structure Realizes (dict : Dictionary) (here : Reference) (d : Definition) (v : Validator) :
    Prop where
  admits : ∀ x, v.kind.admits x = true ↔ Conforms dict here d x
  default : ∀ y, v.default = some y ↔ HasDefault dict here d y
  missing : v.kind.isAny = true ↔ AcceptsMissing dict here d
  nullable : v.nullable = false

namespace Realizes

variable {dict : Dictionary} {here : Reference} {d : Definition} {v : Validator}

theorem accepts_iff (h : Realizes dict here d v) (x : Json) :
    v.accepts x = true ↔ Conforms dict here d x := by
  rw [Validator.accepts_eq_admits, Validator.admits_iff, ← h.admits]
  simp [h.nullable]

theorem of_kind {w : Validator} (h : Realizes dict here d v) (hkind : w.kind = v.kind)
    (hdefault : w.default = v.default) (hnullable : w.nullable = v.nullable) :
    Realizes dict here d w where
  admits x := by rw [hkind]; exact h.admits x
  default y := by rw [hdefault]; exact h.default y
  missing := by rw [hkind]; exact h.missing
  nullable := by rw [hnullable]; exact h.nullable

/-- A composite node has no default and does mind a missing value. -/
theorem of_admits (href : ∀ s, d ≠ .ref s) (hown : d.ownDefault? here = none)
    (hclosed : ¬ (d.isOpen = true ∨ ∃ s, d = .unknown s))
    (hadmits : ∀ x, v.kind.admits x = true ↔ Conforms dict here d x) (hdefault : v.default = none)
    (hkind : v.kind.isAny = false) (hnullable : v.nullable = false) : Realizes dict here d v where
  admits := hadmits
  default y := by
    rw [hasDefault_iff href, hown, hdefault]
  missing := by
    rw [acceptsMissing_iff href, hkind, iff_false_right hclosed]
    exact Bool.false_ne_true
  nullable := hnullable

end Realizes

/-! ## Leaves -/

theorem StringShape.validator_default (s : StringShape) :
    s.validator .default = {
      kind := .string { minLength := s.minLength, maxLength := s.maxLength, oneOf := s.oneOf }
      default := s.const } := by
  obtain ⟨_, _, _, minLength, maxLength, _, oneOf, const⟩ := s
  cases minLength <;> cases maxLength <;> cases oneOf <;> cases const <;> rfl

theorem IntegerShape.validator_default (s : IntegerShape) :
    s.validator .default = {
      kind := .number {
        minimum := s.minimum.map Binary64.ofInt
        maximum := s.maximum.map Binary64.ofInt
        whole := true
        coerce := true
        oneOf := s.oneOf.map fun xs => xs.map Binary64.ofInt }
      default := s.const } := by
  obtain ⟨_, _, minimum, maximum, oneOf, const⟩ := s
  cases minimum <;> cases maximum <;> cases oneOf <;> cases const <;> rfl

theorem BooleanShape.validator_default (s : BooleanShape) :
    s.validator .default = { kind := .boolean, default := s.const } := by
  obtain ⟨_, _, const⟩ := s
  cases const <;> rfl

section
variable {dict : Dictionary} {here : Reference} {d : Definition} {v : Validator}

/-- What the validator of a leaf says beside its rules. -/
structure LeafSettings (here : Reference) (d : Definition) (v : Validator) : Prop where
  nullable : v.nullable = false
  default : d.default?.or v.default = d.ownDefault? here
  any : v.kind.isAny = true ↔ ∃ s, d = .unknown s
  ref : ∀ s, d ≠ .ref s

theorem Definition.leafSettings (h : d.leaf? here = some v) : LeafSettings here d v := by
  cases d with
  | string s =>
    obtain rfl := Option.some.inj h
    rw [s.validator_default]
    exact ⟨rfl, rfl, by simp [Kind.isAny], nofun⟩
  | integer s =>
    obtain rfl := Option.some.inj h
    rw [s.validator_default]
    exact ⟨rfl, rfl, by simp [Kind.isAny], nofun⟩
  | boolean s =>
    obtain rfl := Option.some.inj h
    rw [s.validator_default]
    exact ⟨rfl, rfl, by simp [Kind.isAny], nofun⟩
  | null s | unknown s | blob s | bytes s | cidLink s | token s =>
    obtain rfl := Option.some.inj h
    exact ⟨rfl, rfl, by simp [Kind.isAny, Validator.null, Validator.unknown, BlobShape.validator,
      BytesShape.validator, linkValidator, Validator.object, Validator.withDefault,
      Validator.string], nofun⟩
  | _ => exact nomatch h

theorem realizes_leaf (h : d.leaf? here = some v) :
    Realizes dict here d (v.annotate d.description d.default?) := by
  have hsettings := Definition.leafSettings h
  refine ⟨fun x => ?_, fun y => ?_, ?_, hsettings.nullable⟩
  · rw [conforms_leaf_iff h, Validator.accepts_eq_admits, Validator.admits_iff]
    simp [hsettings.nullable, Validator.annotate]
  · rw [hasDefault_iff hsettings.ref, ← hsettings.default]
    rfl
  · rw [acceptsMissing_iff hsettings.ref]
    have hopen : ¬ d.isOpen = true := fun hopen => by
      rw [Definition.leaf?_of_isOpen hopen] at h
      exact nomatch h
    rw [or_iff_right hopen]
    exact hsettings.any

/-- Open definitions are compiled to validators of anything. -/
theorem realizes_any (h : d.isOpen = true) :
    Realizes dict here d (Validator.any.annotate d.description d.default?) := by
  have href : ∀ s, d ≠ .ref s := by
    rintro s rfl
    exact nomatch h
  refine ⟨fun x => ⟨fun _ => .anything h, fun _ => ?_⟩, fun y => ?_, ?_, rfl⟩
  · simp [Validator.annotate, Validator.any, Kind.admits]
  · have hown : d.default?.or none = d.ownDefault? here := by
      rw [Option.or_none]
      cases d <;> first | rfl | cases h
    rw [hasDefault_iff href, ← hown]
    rfl
  · rw [acceptsMissing_iff href]
    simp [Validator.annotate, Validator.any, Kind.isAny, h]

end

/-! ## Objects and unions -/

section
variable (dict : Dictionary) (here : Reference)

inductive RealizesFields (s : ObjectShape Definition) :
    List (String × Definition) → List (String × Validator) → Prop
  | nil : RealizesFields s [] []
  | cons {key : String} {p : Definition} {v : Validator} {properties : List (String × Definition)}
    {fields : List (String × Validator)} (hv : Realizes dict here p v)
    (hoptional : v.optional = !s.required.contains key)
    (hrest : RealizesFields s properties fields) :
    RealizesFields s ((key, p) :: properties)
      ((key, if s.nullable.contains key then v.asNullable else v) :: fields)

inductive RealizesBranches : List String → List (String × Validator) → Prop
  | nil : RealizesBranches [] []
  | cons {reference : String} {v : Validator} {refs : List String}
    {branches : List (String × Validator)}
    (hv : Realizes dict here (.ref { target := reference }) v)
    (hrest : RealizesBranches refs branches) :
    RealizesBranches (reference :: refs) (((here.resolve reference).discriminator, v) :: branches)

end

section
variable {dict : Dictionary} {here : Reference} {s : ObjectShape Definition} {values : Entries Json}

theorem RealizesFields.keys {properties : List (String × Definition)}
    {fields : List (String × Validator)} (h : RealizesFields dict here s properties fields) :
    Entries.keys fields = Entries.keys properties := by
  induction h with
  | nil => rfl
  | cons _ _ _ ih => rw [Entries.keys_cons, Entries.keys_cons, ih]

theorem admits_field_iff {key : String} {p : Definition} {v : Validator}
    (hv : Realizes dict here p v) (hoptional : v.optional = !s.required.contains key) :
    (if s.nullable.contains key then v.asNullable else v).admits (values.find? key) = true ↔
      FieldConforms dict here s values key p := by
  have hcounts : ∀ y, (values.find? key).or v.default = some y ↔ Counts dict here values key p y := by
    intro y
    rw [Option.or_eq_some_iff, hv.default]
    rfl
  have hnone : (values.find? key).or v.default = none ↔ ∀ y, ¬ Counts dict here values key p y := by
    rw [Option.eq_none_iff_forall_ne_some]
    exact forall_congr' fun y => not_congr (hcounts y)
  have hfield : (if s.nullable.contains key then v.asNullable else v) =
      { v with nullable := s.nullable.contains key } := by
    have hnullable := hv.nullable
    obtain ⟨kind, optional, nullable, default, description⟩ := v
    obtain rfl : nullable = false := hnullable
    cases s.nullable.contains key <;> rfl
  have hmissing : v.kind.isAny = true ∨ v.optional = true ↔
      (key ∈ s.required → AcceptsMissing dict here p) := by
    rw [hv.missing, hoptional]
    by_cases hkey : key ∈ s.required
    · simp [hkey]
    · simp [hkey]
  rw [hfield, Validator.admits_iff]
  refine and_congr (forall_congr' fun y => ?_) ?_
  · rw [hcounts, hv.admits, List.contains_iff_mem]
    refine imp_congr_right fun _ => ?_
    by_cases hnull : key ∈ s.nullable ∧ y = .null
    · simp [hnull]
    · simp [hnull]
  · rw [hnone, hmissing]
    exact ⟨fun h hkey hno => h hno hkey, fun h hno hkey => h hkey hno⟩

theorem RealizesFields.admits_iff {properties : List (String × Definition)}
    {fields : List (String × Validator)} (h : RealizesFields dict here s properties fields) :
    admitsFields fields values = true ↔
      ∀ key p, (key, p) ∈ properties → FieldConforms dict here s values key p := by
  induction h with
  | nil => simp [admitsFields]
  | cons hv hoptional _ ih =>
    rw [admitsFields, Bool.and_eq_true, admits_field_iff hv hoptional, ih]
    constructor
    · rintro ⟨hfirst, hrest⟩ key p hp
      rcases List.mem_cons.mp hp with he | hp
      · cases he
        exact hfirst
      · exact hrest key p hp
    · intro hall
      exact ⟨hall _ _ (List.mem_cons_self ..), fun key p hp => hall key p (List.mem_cons_of_mem _ hp)⟩

/-- An object whose fields do what the properties say does what its definition says. -/
theorem RealizesFields.realizes {d : Definition} {fields : List (String × Validator)}
    (hd : d = .object s ∨ d = .params s) (hdistinct : Entries.Distinct s.properties)
    (h : RealizesFields dict here s s.properties fields) :
    Realizes dict here d ((Validator.object fields).annotate d.description d.default?) := by
  have hfields : Entries.ofList fields = fields := Entries.ofList_eq_self (by
    rw [Entries.Distinct, h.keys]
    exact hdistinct)
  have hobject : (Validator.object fields).annotate d.description d.default? =
      { kind := .object fields, description := d.description } := by
    rw [Validator.object, hfields]
    rcases hd with rfl | rfl <;> rfl
  have hadmits : ∀ x, (Kind.object fields).admits x = true ↔ Conforms dict here d x := by
    intro x
    rw [conforms_object_iff hd]
    cases x with
    | object values =>
      simp only [Kind.admits, h.admits_iff, Json.object.injEq, exists_eq_left']
    | _ => simp [Kind.admits]
  rw [hobject]
  rcases hd with rfl | rfl
  · exact .of_admits (by simp) rfl (by simp [Definition.isOpen]) hadmits rfl rfl rfl
  · exact .of_admits (by simp) rfl (by simp [Definition.isOpen]) hadmits rfl rfl rfl

end

section
variable {dict : Dictionary} {here : Reference} {refs : List String}
  {branches : List (String × Validator)} {x : Json}

theorem Realizes.admits_some {d : Definition} {v : Validator} (h : Realizes dict here d v)
    (x : Json) : v.admits (some x) = true ↔ Conforms dict here d x := by
  rw [← Validator.accepts_eq_admits, h.accepts_iff]

theorem RealizesBranches.admitsAny_iff (h : RealizesBranches dict here refs branches) :
    admitsAny branches x = true ↔
      ∃ reference ∈ refs, Conforms dict here (.ref { target := reference }) x := by
  induction h with
  | nil => simp [admitsAny]
  | cons hv _ ih =>
    rw [admitsAny, Bool.or_eq_true, hv.admits_some, ih]
    simp

/-- The branch that a tag chooses is the one of the first reference with that name. -/
theorem RealizesBranches.admitsTagged_eq (h : RealizesBranches dict here refs branches)
    (tag : String) :
    match refs.find? (fun r => (here.resolve r).discriminator = tag) with
    | some reference => ∃ ok, admitsTagged branches x tag = some ok ∧
        (ok = true ↔ Conforms dict here (.ref { target := reference }) x)
    | none => admitsTagged branches x tag = none := by
  induction h with
  | nil => rfl
  | @cons reference v refs branches hv _ ih =>
    rw [List.find?_cons, admitsTagged]
    by_cases htag : (here.resolve reference).discriminator = tag
    · simp only [htag, decide_true, if_true]
      exact ⟨_, rfl, hv.admits_some x⟩
    · simp only [htag, decide_false, if_false]
      exact ih

/-- A union whose branches do what the references say does what its definition says. -/
theorem RealizesBranches.realizes {s : UnionShape} (h : RealizesBranches dict here s.refs branches) :
    Realizes dict here (.union s)
      ((Validator.taggedUnion Compile.typeField branches s.closed).annotate s.description none) := by
  refine .of_admits nofun rfl (by simp [Definition.isOpen]) (fun x => ?_) rfl rfl rfl
  have hany := h.admitsAny_iff (x := x)
  have htag : (x.get? Compile.typeField).bind Json.string? = x.typeTag? := rfl
  rw [conforms_union_iff]
  simp only [Validator.annotate, Validator.taggedUnion, Kind.admits, htag]
  cases x.typeTag? with
  | none => simpa using hany
  | some tag =>
    have htagged := h.admitsTagged_eq (x := x) tag
    rw [Option.bind_some, Option.bind_some]
    cases hfind : s.refs.find? (fun r => (here.resolve r).discriminator = tag) with
    | some reference =>
      rw [hfind] at htagged
      obtain ⟨ok, hok, hiff⟩ := htagged
      rw [hok]
      exact hiff
    | none =>
      rw [hfind] at htagged
      rw [htagged]
      simp [hany]

end

section
variable {dict : Dictionary} {here : Reference} {v : Validator}

theorem realizes_array {s : ArrayShape Definition} (h : Realizes dict here s.items v) :
    Realizes dict here (.array s)
      ((Validator.array v |>.bounded Validator.minLength s.minLength
        |>.bounded Validator.maxLength s.maxLength).annotate s.description none) := by
  have harray : (Validator.array v |>.bounded Validator.minLength s.minLength
      |>.bounded Validator.maxLength s.maxLength) =
      { kind := .array v s.minLength s.maxLength } := by
    cases s.minLength <;> cases s.maxLength <;> rfl
  rw [harray]
  refine .of_admits nofun rfl (by simp [Definition.isOpen]) (fun x => ?_) rfl rfl rfl
  rw [conforms_array_iff]
  cases x with
  | array elements =>
    simp [Validator.annotate, Kind.admits, h.admits_some, Option.all_eq_true, and_assoc]
  | _ => simp [Validator.annotate, Kind.admits]

variable {s : RefShape} {target : Definition}

theorem Realizes.ref (htarget : dict.definition? (here.resolve s.target) = some target)
    (hrecord : ∀ t, target ≠ .record t) (h : Realizes dict (here.resolve s.target) target v) :
    Realizes dict here (.ref s) (v.annotate s.description none) where
  admits x := by
    rw [conforms_ref_iff htarget hrecord]
    exact h.admits x
  default y := by
    rw [hasDefault_ref_iff htarget]
    exact h.default y
  missing := by
    rw [acceptsMissing_ref_iff htarget, and_iff_right hrecord]
    exact h.missing
  nullable := h.nullable

/-- A reference to a record does what the object of the record says. -/
theorem Realizes.ref_record {t : RecordShape Definition} {body : ObjectShape Definition}
    (htarget : dict.definition? (here.resolve s.target) = some (.record t))
    (hbody : t.record = some body)
    (h : Realizes dict (here.resolve s.target) (.object body) v) :
    Realizes dict here (.ref s) (v.annotate s.description none) where
  admits x := by
    rw [conforms_ref_record_iff htarget]
    refine (h.admits x).trans ⟨fun hx => ⟨body, hbody, hx⟩, ?_⟩
    rintro ⟨body', hbody', hx⟩
    obtain rfl := Option.some.inj (hbody.symm.trans hbody')
    exact hx
  default y := by
    have hobject : HasDefault dict (here.resolve s.target) (.object body) y ↔ none = some y :=
      hasDefault_iff nofun
    have hrecord : HasDefault dict (here.resolve s.target) (.record t) y ↔ none = some y :=
      hasDefault_iff nofun
    rw [hasDefault_ref_iff htarget, hrecord]
    exact (h.default y).trans hobject
  missing := by
    have hobject : AcceptsMissing dict (here.resolve s.target) (.object body) ↔ _ :=
      acceptsMissing_iff nofun
    rw [acceptsMissing_ref_iff htarget]
    refine (h.missing.trans hobject).trans ⟨?_, fun hmissing => absurd rfl (hmissing.1 t)⟩
    simp [Definition.isOpen]
  nullable := h.nullable

/-- Nothing conforms to a reference to a record without an object. -/
theorem realizes_ref_bare {t : RecordShape Definition}
    (htarget : dict.definition? (here.resolve s.target) = some (.record t))
    (hbody : t.record = none) :
    Realizes dict here (.ref s) (Validator.never.annotate s.description none) where
  admits x := by
    rw [conforms_ref_record_iff htarget]
    simp [hbody, Validator.annotate, Validator.never, Kind.admits]
  default y := by
    have hrecord : HasDefault dict (here.resolve s.target) (.record t) y ↔ none = some y :=
      hasDefault_iff nofun
    rw [hasDefault_ref_iff htarget, hrecord]
    exact Iff.rfl
  missing := by
    rw [acceptsMissing_ref_iff htarget]
    simp [Validator.annotate, Validator.never, Kind.isAny]
  nullable := rfl

end
end Lexicon
