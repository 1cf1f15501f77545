import Lexicon.Proofs.Compile.Realizes

/-!
# Validators that accept more

`v.Refines w` says that the kind of `w` admits what the kind of `v` does, and that `w` treats
missing values and null no more strictly, with the same default. A value that `v` accepts is then
accepted by `w` (`Refines.accepts`), and validators that are built alike from refined ones are
refined: no value is lost where one branch of a union comes to accept more, since branches are tried
in the same order and a tag selects the same one.
-/

namespace Lexicon

/-- Each value that the first validator accepts is accepted by the second one, also when it stands
inside another value and when it is missing. -/
structure Validator.Refines (v w : Validator) : Prop where
  admits : ∀ x, v.kind.admits x = true → w.kind.admits x = true
  any : v.kind.isAny = true → w.kind.isAny = true
  optional : v.optional = true → w.optional = true
  nullable : v.nullable = true → w.nullable = true
  default : w.default = v.default

namespace Validator.Refines

variable {v w : Validator}

theorem refl (v : Validator) : v.Refines v where
  admits _ := id
  any := id
  optional := id
  nullable := id
  default := rfl

/-- The value, or the default that stands in for a missing one, is admitted as before. -/
theorem admits_input (h : v.Refines w) (input : Option Json) (hv : v.admits input = true) :
    w.admits input = true := by
  rw [Validator.admits_iff] at hv ⊢
  obtain ⟨hvalue, hmissing⟩ := hv
  rw [h.default]
  refine ⟨fun y hy => ?_, fun hinput => ?_⟩
  · rcases hvalue y hy with ⟨hnullable, rfl⟩ | hkind
    · exact .inl ⟨h.nullable hnullable, rfl⟩
    · exact .inr (h.admits y hkind)
  · rcases hmissing hinput with hany | hoptional
    · exact .inl (h.any hany)
    · exact .inr (h.optional hoptional)

theorem accepts (h : v.Refines w) (x : Json) (hv : v.accepts x = true) : w.accepts x = true := by
  rw [Validator.accepts_eq_admits] at hv ⊢
  exact h.admits_input _ hv

theorem annotate (h : v.Refines w) (description : Option String) (default : Option Json) :
    (v.annotate description default).Refines (w.annotate description default) where
  admits := h.admits
  any := h.any
  optional := h.optional
  nullable := h.nullable
  default := congrArg default.or h.default

theorem asNullable (h : v.Refines w) : v.asNullable.Refines w.asNullable where
  admits := h.admits
  any := h.any
  optional := h.optional
  nullable := id
  default := h.default

/-- A node may be made optional. -/
theorem withOptional (h : v.Refines w) {optional optional' : Bool}
    (hoptional : optional = true → optional' = true) :
    Refines { v with optional } { w with optional := optional' } where
  admits := h.admits
  any := h.any
  optional := hoptional
  nullable := h.nullable
  default := h.default

/-! ## Composite validators -/

theorem of_kind {kind kind' : Kind Validator}
    (hadmits : ∀ x, kind.admits x = true → kind'.admits x = true)
    (hany : kind.isAny = true → kind'.isAny = true) :
    Refines { kind } { kind := kind' } where
  admits := hadmits
  any := hany
  optional := id
  nullable := id
  default := rfl

theorem array (h : v.Refines w) (least greatest : Option Nat) :
    Refines { kind := .array v least greatest } { kind := .array w least greatest } := by
  refine .of_kind (fun x hx => ?_) nofun
  cases x with
  | array elements =>
    rw [Kind.admits, Bool.and_eq_true] at hx ⊢
    refine ⟨hx.1, List.all_eq_true.mpr fun element helement => ?_⟩
    exact h.admits_input _ (List.all_eq_true.mp hx.2 element helement)
  | _ => simp [Kind.admits] at hx

theorem admitsFields {fields fields' : Entries Validator} (h : fields.Related Refines fields')
    (values : Entries Json) (hfields : Lexicon.admitsFields fields values = true) :
    Lexicon.admitsFields fields' values = true := by
  induction h with
  | nil => exact hfields
  | @cons e e' rest rest' he _ ih =>
    obtain ⟨key, v⟩ := e
    obtain ⟨key', w⟩ := e'
    obtain ⟨rfl, hv⟩ := he
    rw [Lexicon.admitsFields, Bool.and_eq_true] at hfields ⊢
    exact ⟨hv.admits_input _ hfields.1, ih hfields.2⟩

theorem object {fields fields' : Entries Validator} (h : fields.Related Refines fields') :
    (Validator.object fields).Refines (.object fields') := by
  refine .of_kind (fun x hx => ?_) nofun
  cases x with
  | object values =>
    rw [Kind.admits] at hx ⊢
    exact admitsFields h.ofList values hx
  | _ => simp [Kind.admits] at hx

theorem admitsAny {branches branches' : Entries Validator} (h : branches.Related Refines branches')
    (x : Json) (hbranches : Lexicon.admitsAny branches x = true) :
    Lexicon.admitsAny branches' x = true := by
  induction h with
  | nil => exact hbranches
  | @cons e e' rest rest' he _ ih =>
    obtain ⟨tag, v⟩ := e
    obtain ⟨tag', w⟩ := e'
    obtain ⟨rfl, hv⟩ := he
    rw [Lexicon.admitsAny, Bool.or_eq_true] at hbranches ⊢
    exact hbranches.imp (hv.admits_input _) ih

/-- A tag selects a branch in both unions or in none. -/
theorem admitsTagged {branches branches' : Entries Validator}
    (h : branches.Related Refines branches') (x : Json) (tag : String) :
    Option.Rel (fun ok ok' => ok = true → ok' = true) (Lexicon.admitsTagged branches x tag)
      (Lexicon.admitsTagged branches' x tag) := by
  induction h with
  | nil => exact .none
  | @cons e e' rest rest' he _ ih =>
    obtain ⟨name, v⟩ := e
    obtain ⟨name', w⟩ := e'
    obtain ⟨rfl, hv⟩ := he
    rw [Lexicon.admitsTagged, Lexicon.admitsTagged]
    split
    · exact .some (hv.admits_input _)
    · exact ih

theorem taggedUnion {branches branches' : Entries Validator} (h : branches.Related Refines branches')
    (field : String) (closed : Bool) :
    (Validator.taggedUnion field branches closed).Refines (.taggedUnion field branches' closed) := by
  refine .of_kind (fun x hx => ?_) nofun
  unfold Kind.admits at hx ⊢
  dsimp only at hx ⊢
  have hany : ∀ refused : Bool, (!refused && Lexicon.admitsAny branches x) = true →
      (!refused && Lexicon.admitsAny branches' x) = true := by
    intro refused hx
    rw [Bool.and_eq_true] at hx ⊢
    exact hx.imp_right (admitsAny h x)
  cases htag : (x.get? field).bind Json.string? with
  | none =>
    rw [htag] at hx
    exact hany _ hx
  | some tag =>
    rw [htag] at hx
    have hselect := admitsTagged h x tag
    rw [Option.bind_some] at hx ⊢
    generalize Lexicon.admitsTagged branches x tag = selected at hx hselect
    generalize Lexicon.admitsTagged branches' x tag = selected' at hselect
    cases hselect with
    | none => exact hany _ hx
    | some hok => exact hok hx

end Validator.Refines
end Lexicon
