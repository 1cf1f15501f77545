import Lexicon.Compile.Leaf
import Lexicon.Proofs.Validator.Acceptance

/-!
# Conformance

`Conforms dict here d x` says directly of a definition that the value `x` conforms to it, where `d`
stands inside the definition `here` of the dictionary. References lead to their targets, in whose
definition the reading goes on. A property that is missing counts as its default, if it has one
(`HasDefault`); otherwise it may be missing if the object does not require it or if its definition
accepts that (`AcceptsMissing`).
-/

namespace Lexicon

def Reference.resolve (here : Reference) (reference : String) : Reference :=
  (Reference.parse reference).within here.nsid

theorem Context.qualify_of_current {ctx : Context} {here : Reference}
    (h : ctx.current? = some here) (reference : String) :
    ctx.qualify reference = here.resolve reference := by
  unfold qualify base Reference.resolve
  rw [h]
  rfl

namespace Definition

def leaf? (here : Reference) : Definition → Option Validator
  | string s => some (s.validator .default)
  | integer s => some (s.validator .default)
  | boolean s => some (s.validator .default)
  | null _ => some .null
  | unknown _ => some .unknown
  | blob s => some s.validator
  | bytes s => some s.validator
  | cidLink _ => some linkValidator
  | token _ => some (Validator.string.withDefault (.string here.discriminator))
  | _ => none

def isOpen : Definition → Bool
  | record _ | query _ | procedure _ | subscription _ | unmodelled _ _ => true
  | _ => false

def ownDefault? (here : Reference) : Definition → Option Json
  | string s => s.default.or s.const
  | integer s => s.default.or s.const
  | boolean s => s.default.or s.const
  | token _ => some (.string here.discriminator)
  | unmodelled _ body => Entries.find? body "default"
  | _ => none

end Definition

def Json.typeTag? (x : Json) : Option String := (x.get? "$type").bind Json.string?

section
variable (dict : Dictionary)

inductive HasDefault : Reference → Definition → Json → Prop
  | own {here : Reference} {d : Definition} {y : Json} (h : d.ownDefault? here = some y) :
    HasDefault here d y
  | ref {here : Reference} {s : RefShape} {d : Definition} {y : Json}
    (htarget : dict.definition? (here.resolve s.target) = some d)
    (h : HasDefault (here.resolve s.target) d y) : HasDefault here (.ref s) y

inductive AcceptsMissing : Reference → Definition → Prop
  | unknown {here : Reference} {s : BareShape} : AcceptsMissing here (.unknown s)
  | anything {here : Reference} {d : Definition} (h : d.isOpen = true) : AcceptsMissing here d
  | ref {here : Reference} {s : RefShape} {d : Definition}
    (htarget : dict.definition? (here.resolve s.target) = some d) (hd : ∀ t, d ≠ .record t)
    (h : AcceptsMissing (here.resolve s.target) d) : AcceptsMissing here (.ref s)

def Counts (here : Reference) (values : Entries Json) (key : String) (d : Definition) (y : Json) :
    Prop :=
  values.find? key = some y ∨ values.find? key = none ∧ HasDefault dict here d y

inductive Conforms : Reference → Definition → Json → Prop
  | leaf {here : Reference} {d : Definition} {v : Validator} {x : Json}
    (hleaf : d.leaf? here = some v) (h : v.accepts x = true) : Conforms here d x
  | anything {here : Reference} {d : Definition} {x : Json} (h : d.isOpen = true) :
    Conforms here d x
  | array {here : Reference} {s : ArrayShape Definition} {elements : List Json}
    (hmin : ∀ n ∈ s.minLength, n ≤ elements.length)
    (hmax : ∀ n ∈ s.maxLength, elements.length ≤ n)
    (h : ∀ x ∈ elements, Conforms here s.items x) : Conforms here (.array s) (.array elements)
  | object {here : Reference} {d : Definition} {s : ObjectShape Definition} {values : Entries Json}
    (hd : d = .object s ∨ d = .params s)
    (h : ∀ key p y, (key, p) ∈ s.properties → Counts dict here values key p y →
      ¬ (key ∈ s.nullable ∧ y = .null) → Conforms here p y)
    (hmissing : ∀ key p, (key, p) ∈ s.properties → key ∈ s.required →
      (∀ y, ¬ Counts dict here values key p y) → AcceptsMissing dict here p) :
    Conforms here d (.object values)
  | ref {here : Reference} {s : RefShape} {d : Definition} {x : Json}
    (htarget : dict.definition? (here.resolve s.target) = some d) (hd : ∀ t, d ≠ .record t)
    (h : Conforms (here.resolve s.target) d x) : Conforms here (.ref s) x
  | record {here : Reference} {s : RefShape} {t : RecordShape Definition}
    {body : ObjectShape Definition} {x : Json}
    (htarget : dict.definition? (here.resolve s.target) = some (.record t))
    (hbody : t.record = some body) (h : Conforms (here.resolve s.target) (.object body) x) :
    Conforms here (.ref s) x
  /-- The first branch that the value names. -/
  | named {here : Reference} {s : UnionShape} {tag reference : String} {x : Json}
    (htag : x.typeTag? = some tag)
    (hfirst : s.refs.find? (fun r => (here.resolve r).discriminator = tag) = some reference)
    (h : Conforms here (.ref { target := reference }) x) : Conforms here (.union s) x
  /-- Any branch, where the value names none. -/
  | unnamed {here : Reference} {s : UnionShape} {reference : String} {x : Json}
    (htag : ∀ tag, x.typeTag? = some tag →
      s.closed = false ∧ ∀ r ∈ s.refs, (here.resolve r).discriminator ≠ tag)
    (hmem : reference ∈ s.refs) (h : Conforms here (.ref { target := reference }) x) :
    Conforms here (.union s) x

end

section
variable {dict : Dictionary} {here : Reference} {d target : Definition} {x : Json}

theorem Definition.leaf?_of_isOpen (h : d.isOpen = true) : d.leaf? here = none := by
  cases d <;> first | rfl | cases h

theorem conforms_leaf_iff {v : Validator} (hleaf : d.leaf? here = some v) :
    Conforms dict here d x ↔ v.accepts x = true := by
  constructor
  · intro h
    cases h with
    | leaf hleaf' h =>
      obtain rfl := Option.some.inj (hleaf'.symm.trans hleaf)
      exact h
    | anything h =>
      rw [Definition.leaf?_of_isOpen h] at hleaf
      exact nomatch hleaf
    | object hd h hmissing =>
      rcases hd with rfl | rfl
      · exact nomatch hleaf
      · exact nomatch hleaf
    | _ => exact nomatch hleaf
  · exact .leaf hleaf

theorem conforms_array_iff {s : ArrayShape Definition} :
    Conforms dict here (.array s) x ↔ ∃ elements, x = .array elements ∧
      (∀ n ∈ s.minLength, n ≤ elements.length) ∧ (∀ n ∈ s.maxLength, elements.length ≤ n) ∧
      ∀ y ∈ elements, Conforms dict here s.items y := by
  constructor
  · intro h
    cases h with
    | array hmin hmax h => exact ⟨_, rfl, hmin, hmax, h⟩
    | leaf hleaf _ => exact nomatch hleaf
    | anything h => exact nomatch h
    | object hd _ _ => rcases hd with hd | hd <;> cases hd
  · rintro ⟨elements, rfl, hmin, hmax, h⟩
    exact .array hmin hmax h

def FieldConforms (dict : Dictionary) (here : Reference) (s : ObjectShape Definition)
    (values : Entries Json) (key : String) (p : Definition) : Prop :=
  (∀ y, Counts dict here values key p y → ¬ (key ∈ s.nullable ∧ y = .null) →
    Conforms dict here p y) ∧
  (key ∈ s.required → (∀ y, ¬ Counts dict here values key p y) → AcceptsMissing dict here p)

theorem conforms_object_iff {s : ObjectShape Definition} (hd : d = .object s ∨ d = .params s) :
    Conforms dict here d x ↔ ∃ values, x = .object values ∧
      ∀ key p, (key, p) ∈ s.properties → FieldConforms dict here s values key p := by
  constructor
  · intro h
    cases h with
    | @object _ _ t values ht h hmissing =>
      obtain rfl : t = s := by
        rcases hd with rfl | rfl <;> rcases ht with ht | ht <;> cases ht <;> rfl
      refine ⟨values, rfl, fun key p hp => ⟨fun y => h key p y hp, hmissing key p hp⟩⟩
    | leaf hleaf _ => rcases hd with rfl | rfl <;> cases hleaf
    | anything h => rcases hd with rfl | rfl <;> cases h
    | _ => rcases hd with hd | hd <;> cases hd
  · rintro ⟨values, rfl, h⟩
    exact .object hd (fun key p y hp => (h key p hp).1 y) fun key p hp => (h key p hp).2

theorem conforms_ref_iff {s : RefShape}
    (htarget : dict.definition? (here.resolve s.target) = some target)
    (hrecord : ∀ t, target ≠ .record t) :
    Conforms dict here (.ref s) x ↔ Conforms dict (here.resolve s.target) target x := by
  constructor
  · intro h
    cases h with
    | ref htarget' _ h =>
      obtain rfl := Option.some.inj (htarget'.symm.trans htarget)
      exact h
    | record htarget' _ _ =>
      exact absurd (Option.some.inj (htarget.symm.trans htarget')) (hrecord _)
    | leaf hleaf _ => exact nomatch hleaf
    | anything h => exact nomatch h
    | object hd _ _ => rcases hd with hd | hd <;> cases hd
  · exact .ref htarget hrecord

/-- A record stands for its object; without one, nothing conforms. -/
theorem conforms_ref_record_iff {s : RefShape} {t : RecordShape Definition}
    (htarget : dict.definition? (here.resolve s.target) = some (.record t)) :
    Conforms dict here (.ref s) x ↔
      ∃ body, t.record = some body ∧ Conforms dict (here.resolve s.target) (.object body) x := by
  constructor
  · intro h
    cases h with
    | ref htarget' hd _ =>
      exact absurd (Option.some.inj (htarget'.symm.trans htarget)) (hd _)
    | record htarget' hbody h =>
      obtain rfl : t = _ := by simpa using htarget.symm.trans htarget'
      exact ⟨_, hbody, h⟩
    | leaf hleaf _ => exact nomatch hleaf
    | anything h => exact nomatch h
    | object hd _ _ => rcases hd with hd | hd <;> cases hd
  · rintro ⟨body, hbody, h⟩
    exact .record htarget hbody h

theorem conforms_union_iff {s : UnionShape} :
    Conforms dict here (.union s) x ↔
      match x.typeTag?.bind fun tag =>
        s.refs.find? (fun r => (here.resolve r).discriminator = tag) with
      | some reference => Conforms dict here (.ref { target := reference }) x
      | none => (x.typeTag?.isSome = true → s.closed = false) ∧
          ∃ reference ∈ s.refs, Conforms dict here (.ref { target := reference }) x := by
  constructor
  · intro h
    cases h with
    | named htag hfirst h =>
      rw [htag, Option.bind_some, hfirst]
      exact h
    | unnamed htag hmem h =>
      have hnone : (x.typeTag?.bind fun tag =>
          s.refs.find? (fun r => (here.resolve r).discriminator = tag)) = none := by
        rw [Option.bind_eq_none_iff]
        intro tag hx
        rw [List.find?_eq_none]
        intro r hr
        simpa using (htag tag hx).2 r hr
      rw [hnone]
      refine ⟨fun hsome => ?_, _, hmem, h⟩
      obtain ⟨tag, hx⟩ := Option.isSome_iff_exists.mp hsome
      exact (htag tag hx).1
    | leaf hleaf _ => exact nomatch hleaf
    | anything h => exact nomatch h
    | object hd _ _ => rcases hd with hd | hd <;> cases hd
  · cases hchosen : x.typeTag?.bind fun tag =>
        s.refs.find? (fun r => (here.resolve r).discriminator = tag) with
    | some reference =>
      intro h
      obtain ⟨tag, htag, hfirst⟩ := Option.bind_eq_some_iff.mp hchosen
      exact .named htag hfirst h
    | none =>
      rintro ⟨hclosed, reference, hmem, h⟩
      refine .unnamed (fun tag htag => ⟨hclosed (by rw [htag]; rfl), fun r hr => ?_⟩) hmem h
      have hfind := Option.bind_eq_none_iff.mp hchosen tag htag
      simpa using List.find?_eq_none.mp hfind r hr

theorem hasDefault_ref_iff {s : RefShape} {y : Json}
    (htarget : dict.definition? (here.resolve s.target) = some target) :
    HasDefault dict here (.ref s) y ↔ HasDefault dict (here.resolve s.target) target y := by
  constructor
  · intro h
    cases h with
    | own h => exact nomatch h
    | ref htarget' h =>
      obtain rfl := Option.some.inj (htarget'.symm.trans htarget)
      exact h
  · exact .ref htarget

/-- Only references have a default that is not their own. -/
theorem hasDefault_iff {y : Json} (hd : ∀ s, d ≠ .ref s) :
    HasDefault dict here d y ↔ d.ownDefault? here = some y := by
  constructor
  · intro h
    cases h with
    | own h => exact h
    | ref _ _ => exact absurd rfl (hd _)
  · exact .own

theorem acceptsMissing_iff (hd : ∀ s, d ≠ .ref s) :
    AcceptsMissing dict here d ↔ d.isOpen = true ∨ ∃ s, d = .unknown s := by
  constructor
  · intro h
    cases h with
    | unknown => exact .inr ⟨_, rfl⟩
    | anything h => exact .inl h
    | ref _ _ _ => exact absurd rfl (hd _)
  · rintro (h | ⟨s, rfl⟩)
    · exact .anything h
    · exact .unknown

theorem acceptsMissing_ref_iff {s : RefShape}
    (htarget : dict.definition? (here.resolve s.target) = some target) :
    AcceptsMissing dict here (.ref s) ↔
      (∀ t, target ≠ .record t) ∧ AcceptsMissing dict (here.resolve s.target) target := by
  constructor
  · intro h
    cases h with
    | anything h => exact nomatch h
    | ref htarget' hd h =>
      obtain rfl := Option.some.inj (htarget'.symm.trans htarget)
      exact ⟨hd, h⟩
  · rintro ⟨hd, h⟩
    exact .ref htarget hd h

end
end Lexicon
