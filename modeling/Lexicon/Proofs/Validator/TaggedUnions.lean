import Lexicon.Proofs.Validator.Acceptance

/-!
# Values of tagged unions

A union accepts a value with the tag of a branch as the first branch of that tag does
(`Validator.accepts_of_tag`). A closed union accepts no value with another tag, but only a text is a
tag: where the field holds anything else, all branches of a closed union are tried, as those of an
open one are (`Validator.accepts_closed_iff`).
-/

namespace Lexicon.Validator

variable {v w : Validator} {kind : Kind Validator} {x y : Json} {field tag : String}
  {branches : List (String × Validator)} {closed : Bool} {fields : Entries Json}

/-- The settings of a validator do not matter to a value that is there and is not null. -/
theorem accepts_of_kind (hkind : v.kind = kind) (hx : x.isNull = false) :
    v.accepts x = kind.admits x := by
  obtain ⟨_, optional, nullable, default, description⟩ := v
  obtain rfl := hkind
  rw [accepts_eq_admits]
  simp only [admits, Option.some_or, hx, Bool.and_false, Bool.false_or]

theorem admitsTagged_eq (branches : List (String × Validator)) (x : Json) (tag : String) :
    admitsTagged branches x tag = (Entries.find? branches tag).map (·.admits (some x)) := by
  induction branches with
  | nil => rfl
  | cons e rest ih =>
    obtain ⟨name, v⟩ := e
    rw [admitsTagged, Entries.find?_cons, ih]
    split <;> rfl

theorem admitsAny_iff : admitsAny branches x = true ↔ ∃ e ∈ branches, e.2.accepts x = true := by
  induction branches with
  | nil => simp [admitsAny]
  | cons e rest ih =>
    rw [admitsAny, Bool.or_eq_true, ih, ← accepts_eq_admits]
    simp only [List.mem_cons, exists_eq_or_imp]

/-- What a union does with an object is decided by the text that its field holds. -/
theorem accepts_tagged_eq (hkind : v.kind = .tagged field branches closed) {text : Option String}
    (htext : (fields.find? field).bind Json.string? = text) :
    v.accepts (.object fields) =
      match text.bind (Entries.find? branches) with
      | some w => w.accepts (.object fields)
      | none => !(text.isSome && closed) && admitsAny branches (.object fields) := by
  rw [accepts_of_kind hkind rfl, Kind.admits, Json.get?_object, htext]
  cases text with
  | none => rfl
  | some tag =>
    dsimp only [Option.bind_some]
    rw [admitsTagged_eq]
    cases Entries.find? branches tag with
    | none => rfl
    | some w => exact (accepts_eq_admits w _).symm

/-- A value whose tag is the one of a branch is accepted as by the first such branch. -/
theorem accepts_of_tag (hkind : v.kind = .tagged field branches closed)
    (htag : fields.find? field = some (.string tag)) (hw : Entries.find? branches tag = some w) :
    v.accepts (.object fields) = w.accepts (.object fields) := by
  have htext : (fields.find? field).bind Json.string? = some tag := by rw [htag]; rfl
  rw [accepts_tagged_eq hkind htext, Option.bind_some, hw]

/-- A closed union refuses a value whose tag is of no branch. -/
theorem not_accepts_of_tag (hkind : v.kind = .tagged field branches true)
    (htag : fields.find? field = some (.string tag)) (hnone : Entries.find? branches tag = none) :
    v.accepts (.object fields) = false := by
  have htext : (fields.find? field).bind Json.string? = some tag := by rw [htag]; rfl
  rw [accepts_tagged_eq hkind htext, Option.bind_some, hnone]
  rfl

/-- Without a tag that is a text, all branches are tried, in a closed union too. -/
theorem accepts_of_not_text (hkind : v.kind = .tagged field branches closed)
    (hfield : (fields.find? field).bind Json.string? = none) :
    v.accepts (.object fields) = true ↔ ∃ e ∈ branches, e.2.accepts (.object fields) = true := by
  rw [accepts_tagged_eq hkind hfield, ← admitsAny_iff]
  rfl

theorem accepts_taggedUnion (hv : Entries.find? branches tag = some v)
    (htag : fields.find? field = some (.string tag)) :
    (taggedUnion field branches closed).accepts (.object fields) = v.accepts (.object fields) :=
  accepts_of_tag rfl htag hv

/-- What a closed union accepts of the objects with its field: those that have the tag of a branch
there and are accepted by the first branch of that tag, and those that have no text there and are
accepted by any branch. -/
theorem accepts_closed_iff (hkind : v.kind = .tagged field branches true)
    (hfield : fields.find? field = some y) :
    v.accepts (.object fields) = true ↔
      (∃ tag w, y = .string tag ∧ Entries.find? branches tag = some w ∧
        w.accepts (.object fields) = true) ∨
      ((∀ tag, y ≠ .string tag) ∧ ∃ e ∈ branches, e.2.accepts (.object fields) = true) := by
  cases y with
  | string tag =>
    cases hbranch : Entries.find? branches tag with
    | some w =>
      rw [accepts_of_tag hkind hfield hbranch]
      constructor
      · exact fun h => .inl ⟨tag, w, rfl, hbranch, h⟩
      · rintro (⟨_, w', ⟨⟩, hw', h⟩ | ⟨hne, -⟩)
        · obtain rfl : w = w' := Option.some.inj (hbranch.symm.trans hw')
          exact h
        · exact absurd rfl (hne tag)
    | none =>
      rw [not_accepts_of_tag hkind hfield hbranch]
      constructor
      · exact nofun
      · rintro (⟨_, w, ⟨⟩, hw, -⟩ | ⟨hne, -⟩)
        · exact nomatch hbranch.symm.trans hw
        · exact absurd rfl (hne tag)
  | _ =>
    rw [accepts_of_not_text hkind (by rw [hfield]; rfl)]
    constructor
    · exact fun h => .inr ⟨nofun, h⟩
    · rintro (⟨_, _, ⟨⟩, -⟩ | ⟨-, h⟩)
      exact h

def workBranches : List (String × Validator) := [
  ("app.photo", object [("title", string.asOptional)]),
  ("app.film", object [("length", integer)])]

def work : Validator := taggedUnion "$type" workBranches true

/-- A film needs its length, though the value would do for a photo. -/
theorem accepts_closed_film :
    work.accepts (.object [("$type", .string "app.film"), ("length", .integer 90)]) = true ∧
      work.accepts (.object [("$type", .string "app.film")]) = false := by
  have hfilm : Entries.find? workBranches "app.film" = some (object [("length", integer)]) := rfl
  have hlength : (object [("length", integer)]).accepts
      (.object [("$type", .string "app.film")]) = false := by decide +kernel
  constructor
  · exact (accepts_closed_iff rfl rfl).mpr (.inl ⟨"app.film", _, rfl, hfilm, by decide +kernel⟩)
  · refine Bool.eq_false_iff.mpr fun haccepts => ?_
    rcases (accepts_closed_iff (v := work) rfl rfl).mp haccepts with ⟨_, w, ⟨⟩, hw, h⟩ | ⟨hne, -⟩
    · obtain rfl := Option.some.inj (hfilm.symm.trans hw)
      exact nomatch hlength.symm.trans h
    · exact hne "app.film" rfl

/-- A number in the place of the tag names no branch, and the value is accepted as a photo. -/
theorem accepts_closed_number :
    work.accepts (.object [("$type", .integer 5)]) = true ∧ ∀ tag, Json.integer 5 ≠ .string tag :=
  ⟨by decide +kernel, nofun⟩

end Lexicon.Validator
