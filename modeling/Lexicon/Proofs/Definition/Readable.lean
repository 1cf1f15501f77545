import Lexicon.Proofs.Definition.Read

/-!
# What reading leaves in a definition

A reader gives only values that it can read once more: a size fits its word, and a default or a
constant is never null. `Definition.Readable` says so of the fields of one definition, and
`all_readable_of_ofJson` that it holds of everything inside a definition that was read.
-/

namespace Lexicon

def Read.Yields {α : Type} (read : Read α) (a : α) : Prop := ∃ x, read x = .ok a

open Read (Yields optional)

theorem Read.yields_none {α : Type} (read : Read α) : Yields (optional read) none := ⟨.null, rfl⟩

structure StringShape.Readable (s : StringShape) : Prop where
  default : Yields (optional Read.any) s.default
  minLength : Yields (optional Read.size) s.minLength
  maxLength : Yields (optional Read.size) s.maxLength
  const : Yields (optional Read.any) s.const

structure IntegerShape.Readable (s : IntegerShape) : Prop where
  default : Yields (optional Read.any) s.default
  minimum : Yields (optional Read.int64) s.minimum
  maximum : Yields (optional Read.int64) s.maximum
  oneOf : Yields (optional (Read.list Read.int64)) s.oneOf
  const : Yields (optional Read.any) s.const

structure BooleanShape.Readable (s : BooleanShape) : Prop where
  default : Yields (optional Read.any) s.default
  const : Yields (optional Read.any) s.const

structure BytesShape.Readable (s : BytesShape) : Prop where
  minLength : Yields (optional Read.size) s.minLength
  maxLength : Yields (optional Read.size) s.maxLength

structure ArrayShape.Readable {δ : Type} (s : ArrayShape δ) : Prop where
  minLength : Yields (optional Read.size) s.minLength
  maxLength : Yields (optional Read.size) s.maxLength

/-- The fields of the definition itself can be read from some value, and an unmodelled tag is the
one that its fields name. -/
def Definition.Readable : Definition → Prop
  | string s => s.Readable
  | integer s => s.Readable
  | boolean s => s.Readable
  | blob s => Yields (optional Read.word64) s.maxSize
  | bytes s => s.Readable
  | array s => s.Readable
  | unmodelled tag body => tagOf body = tag
  | _ => True

theorem StringShape.readable_of_ofFields {s : StringShape} {fields : Entries Json}
    (h : reader.ofFields fields = .ok s) : s.Readable := by
  have blank : reader.blank.Readable :=
    ⟨Read.yields_none _, Read.yields_none _, Read.yields_none _, Read.yields_none _⟩
  refine reader.ofFields_induct (P := Readable) blank ?_ h
  intro s key x t _ hs ht
  simp only [reader] at ht
  split at ht
  case h_2 =>
    obtain ⟨o, ho, rfl⟩ := bind_pure_eq_ok.mp ht
    exact ⟨⟨x, ho⟩, hs.minLength, hs.maxLength, hs.const⟩
  case h_4 =>
    obtain ⟨o, ho, rfl⟩ := bind_pure_eq_ok.mp ht
    exact ⟨hs.default, ⟨x, ho⟩, hs.maxLength, hs.const⟩
  case h_5 =>
    obtain ⟨o, ho, rfl⟩ := bind_pure_eq_ok.mp ht
    exact ⟨hs.default, hs.minLength, ⟨x, ho⟩, hs.const⟩
  case h_8 =>
    obtain ⟨o, ho, rfl⟩ := bind_pure_eq_ok.mp ht
    exact ⟨hs.default, hs.minLength, hs.maxLength, ⟨x, ho⟩⟩
  case h_9 =>
    obtain rfl := Except.ok.inj ht
    exact hs
  all_goals
    obtain ⟨_, _, rfl⟩ := bind_pure_eq_ok.mp ht
    exact ⟨hs.default, hs.minLength, hs.maxLength, hs.const⟩

theorem IntegerShape.readable_of_ofFields {s : IntegerShape} {fields : Entries Json}
    (h : reader.ofFields fields = .ok s) : s.Readable := by
  have blank : reader.blank.Readable :=
    ⟨Read.yields_none _, Read.yields_none _, Read.yields_none _, Read.yields_none _,
      Read.yields_none _⟩
  refine reader.ofFields_induct (P := Readable) blank ?_ h
  intro s key x t _ hs ht
  simp only [reader] at ht
  split at ht
  case h_1 =>
    obtain ⟨_, _, rfl⟩ := bind_pure_eq_ok.mp ht
    exact ⟨hs.default, hs.minimum, hs.maximum, hs.oneOf, hs.const⟩
  case h_2 =>
    obtain ⟨o, ho, rfl⟩ := bind_pure_eq_ok.mp ht
    exact ⟨⟨x, ho⟩, hs.minimum, hs.maximum, hs.oneOf, hs.const⟩
  case h_3 =>
    obtain ⟨o, ho, rfl⟩ := bind_pure_eq_ok.mp ht
    exact ⟨hs.default, ⟨x, ho⟩, hs.maximum, hs.oneOf, hs.const⟩
  case h_4 =>
    obtain ⟨o, ho, rfl⟩ := bind_pure_eq_ok.mp ht
    exact ⟨hs.default, hs.minimum, ⟨x, ho⟩, hs.oneOf, hs.const⟩
  case h_5 =>
    obtain ⟨o, ho, rfl⟩ := bind_pure_eq_ok.mp ht
    exact ⟨hs.default, hs.minimum, hs.maximum, ⟨x, ho⟩, hs.const⟩
  case h_6 =>
    obtain ⟨o, ho, rfl⟩ := bind_pure_eq_ok.mp ht
    exact ⟨hs.default, hs.minimum, hs.maximum, hs.oneOf, ⟨x, ho⟩⟩
  case h_7 =>
    obtain rfl := Except.ok.inj ht
    exact hs

theorem BooleanShape.readable_of_ofFields {s : BooleanShape} {fields : Entries Json}
    (h : reader.ofFields fields = .ok s) : s.Readable := by
  have blank : reader.blank.Readable := ⟨Read.yields_none _, Read.yields_none _⟩
  refine reader.ofFields_induct (P := Readable) blank ?_ h
  intro s key x t _ hs ht
  simp only [reader] at ht
  split at ht
  case h_1 =>
    obtain ⟨_, _, rfl⟩ := bind_pure_eq_ok.mp ht
    exact ⟨hs.default, hs.const⟩
  case h_2 =>
    obtain ⟨o, ho, rfl⟩ := bind_pure_eq_ok.mp ht
    exact ⟨⟨x, ho⟩, hs.const⟩
  case h_3 =>
    obtain ⟨o, ho, rfl⟩ := bind_pure_eq_ok.mp ht
    exact ⟨hs.default, ⟨x, ho⟩⟩
  case h_4 =>
    obtain rfl := Except.ok.inj ht
    exact hs

theorem BlobShape.maxSize_of_ofFields {s : BlobShape} {fields : Entries Json}
    (h : reader.ofFields fields = .ok s) : Yields (optional Read.word64) s.maxSize := by
  refine reader.ofFields_induct (P := fun s => Yields (optional Read.word64) s.maxSize)
    (Read.yields_none _) ?_ h
  intro s key x t _ hs ht
  simp only [reader] at ht
  split at ht
  case h_3 =>
    obtain ⟨o, ho, rfl⟩ := bind_pure_eq_ok.mp ht
    exact ⟨x, ho⟩
  case h_4 =>
    obtain rfl := Except.ok.inj ht
    exact hs
  all_goals
    obtain ⟨_, _, rfl⟩ := bind_pure_eq_ok.mp ht
    exact hs

theorem BytesShape.readable_of_ofFields {s : BytesShape} {fields : Entries Json}
    (h : reader.ofFields fields = .ok s) : s.Readable := by
  have blank : reader.blank.Readable := ⟨Read.yields_none _, Read.yields_none _⟩
  refine reader.ofFields_induct (P := Readable) blank ?_ h
  intro s key x t _ hs ht
  simp only [reader] at ht
  split at ht
  case h_1 =>
    obtain ⟨_, _, rfl⟩ := bind_pure_eq_ok.mp ht
    exact ⟨hs.minLength, hs.maxLength⟩
  case h_2 =>
    obtain ⟨o, ho, rfl⟩ := bind_pure_eq_ok.mp ht
    exact ⟨⟨x, ho⟩, hs.maxLength⟩
  case h_3 =>
    obtain ⟨o, ho, rfl⟩ := bind_pure_eq_ok.mp ht
    exact ⟨hs.minLength, ⟨x, ho⟩⟩
  case h_4 =>
    obtain rfl := Except.ok.inj ht
    exact hs

variable {inner : ReadInner}

theorem ArrayShape.readable_of_ofFields {s : ArrayShape Definition} {fields : Entries Json}
    (h : ofFields inner fields = .ok s) : s.Readable := by
  obtain ⟨t, ht, h⟩ := bind_eq_ok.mp h
  have hread : t.Readable := by
    have blank : (reader inner).blank.Readable := ⟨Read.yields_none _, Read.yields_none _⟩
    refine (reader inner).ofFields_induct (P := Readable) blank ?_ ht
    intro s key x t _ hs ht
    simp only [reader] at ht
    split at ht
    case h_3 =>
      obtain ⟨o, ho, rfl⟩ := bind_pure_eq_ok.mp ht
      exact ⟨⟨x, ho⟩, hs.maxLength⟩
    case h_4 =>
      obtain ⟨o, ho, rfl⟩ := bind_pure_eq_ok.mp ht
      exact ⟨hs.minLength, ⟨x, ho⟩⟩
    case h_5 =>
      obtain rfl := Except.ok.inj ht
      exact hs
    all_goals
      obtain ⟨_, _, rfl⟩ := bind_pure_eq_ok.mp ht
      exact ⟨hs.minLength, hs.maxLength⟩
  split at h
  · cases h
  · obtain rfl := Except.ok.inj h
    exact ⟨hread.minLength, hread.maxLength⟩

namespace Definition

theorem readable_of_ofFields {fields : Entries Json} {d : Definition}
    (h : ofFields inner (tagOf fields) fields = .ok d) : d.Readable := by
  unfold ofFields at h
  split at h
  case h_3 =>
    obtain ⟨s, hs, rfl⟩ := map_eq_ok.mp h
    exact ArrayShape.readable_of_ofFields hs
  case h_4 =>
    obtain ⟨s, hs, rfl⟩ := map_eq_ok.mp h
    exact StringShape.readable_of_ofFields hs
  case h_5 =>
    obtain ⟨s, hs, rfl⟩ := map_eq_ok.mp h
    exact IntegerShape.readable_of_ofFields hs
  case h_6 =>
    obtain ⟨s, hs, rfl⟩ := map_eq_ok.mp h
    exact BooleanShape.readable_of_ofFields hs
  case h_7 =>
    obtain ⟨s, hs, rfl⟩ := map_eq_ok.mp h
    exact BlobShape.maxSize_of_ofFields hs
  case h_8 =>
    obtain ⟨s, hs, rfl⟩ := map_eq_ok.mp h
    exact BytesShape.readable_of_ofFields hs
  case h_19 =>
    obtain rfl := Except.ok.inj h
    exact rfl
  all_goals
    obtain ⟨_, _, rfl⟩ := map_eq_ok.mp h
    trivial

theorem all_readable_of_ofJson {x : Json} {d : Definition} (h : ofJson x = .ok d) :
    d.All Readable :=
  all_of_ofJsonAt (fun _ _ _ => readable_of_ofFields) h

end Definition
end Lexicon
