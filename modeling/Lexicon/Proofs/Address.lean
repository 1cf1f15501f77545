import Mathlib
import Lexicon.Address

/-!
# Addresses below an address

`Below a b` says that `b` goes on from `a` with at least one more part. Keys without a dot are
single parts, so the addresses at and below different keys of one parent are different
(`eq_of_within_property`), and so are those of different branches (`eq_of_within_branch`).
`Moves p q a b` says that `b` stands to `q` as `a` stands to `p`.
-/

namespace Lexicon.Address

def IsPart (key : String) : Prop := key ≠ "" ∧ '.' ∉ key.toList

def Below (a b : Address) : Prop := ∃ rest : String, b = a ++ "." ++ rest

def Within (a b : Address) : Prop := b = a ∨ Below a b

variable {a b : Address} {key key' : String}

theorem within_self (a : Address) : Within a a := .inl rfl

theorem below_property (ha : a ≠ "") (key : String) : Below a (a.property key) :=
  ⟨key, property_of_ne ha key⟩

theorem property_ne (ha : a ≠ "") (key : String) : a.property key ≠ "" := by
  rw [property_of_ne ha]
  intro h
  have hlist := congrArg String.toList h
  simp at hlist

/-- The address of a property with a key is not the root. -/
theorem property_ne_of_key (hkey : key ≠ "") (a : Address) : a.property key ≠ "" := by
  by_cases ha : a = ""
  · rwa [ha, property_empty]
  · exact property_ne ha key

theorem branch_ne (ha : a ≠ "") (index : Nat) : a.branch index ≠ "" := property_ne ha _

theorem element_ne (ha : a ≠ "") : a.element ≠ "" := property_ne ha _

/-- What is at or below a child is below the parent. -/
theorem below_of_within (ha : a ≠ "") (h : Within (a.property key) b) : Below a b := by
  rcases h with rfl | ⟨rest, rfl⟩
  · exact below_property ha key
  · refine ⟨key ++ "." ++ rest, ?_⟩
    rw [property_of_ne ha]
    simp only [String.append_assoc]

theorem ne_of_below (h : Below a b) : b ≠ a := by
  obtain ⟨rest, rfl⟩ := h
  intro h
  have hlength := congrArg (fun s => s.toList.length) h
  simp only [String.toList_append, List.length_append] at hlength
  have hdot : ".".toList.length = 1 := rfl
  omega

/-- A part ends where the address ends or with a dot. -/
theorem Within.exists_rest (h : Within a b) :
    ∃ rest : List Char, b.toList = a.toList ++ rest ∧ ∀ c ∈ rest.head?, c = '.' := by
  rcases h with rfl | ⟨rest, rfl⟩
  · exact ⟨[], by simp, nofun⟩
  · exact ⟨'.' :: rest.toList, by simp, by simp⟩

theorem takeWhile_part {part rest : List Char} (hpart : '.' ∉ part)
    (hrest : ∀ c ∈ rest.head?, c = '.') : (part ++ rest).takeWhile (· ≠ '.') = part := by
  rw [List.takeWhile_append_of_pos]
  · cases rest with
    | nil => simp
    | cons c rest =>
      obtain rfl := hrest c rfl
      simp
  · intro c hc
    have hne : c ≠ '.' := fun he => hpart (he ▸ hc)
    simpa using hne

/-- Keys of top-level definitions do not share addresses. -/
theorem eq_of_within (hkey : '.' ∉ key.toList) (hkey' : '.' ∉ key'.toList) (h : Within key b)
    (h' : Within key' b) : key = key' := by
  obtain ⟨rest, hb, hrest⟩ := h.exists_rest
  obtain ⟨rest', hb', hrest'⟩ := h'.exists_rest
  have hpart := takeWhile_part hkey hrest
  have hpart' := takeWhile_part hkey' hrest'
  rw [← hb] at hpart
  rw [← hb'] at hpart'
  exact String.toList_inj.mp (hpart.symm.trans hpart')

/-- Keys of one parent do not share addresses. -/
theorem eq_of_within_property (ha : a ≠ "") (hkey : '.' ∉ key.toList) (hkey' : '.' ∉ key'.toList)
    (h : Within (a.property key) b) (h' : Within (a.property key') b) : key = key' := by
  obtain ⟨rest, hb, hrest⟩ := h.exists_rest
  obtain ⟨rest', hb', hrest'⟩ := h'.exists_rest
  rw [property_of_ne ha, String.toList_append, List.append_assoc] at hb hb'
  have hpart := takeWhile_part hkey hrest
  have hpart' := takeWhile_part hkey' hrest'
  rw [List.append_cancel_left (hb.symm.trans hb'), hpart'] at hpart
  exact String.toList_inj.mp hpart.symm

/-- Keys of one parent that are single parts do not share addresses, at the root neither. -/
theorem IsPart.eq_of_within (hkey : IsPart key) (hkey' : IsPart key')
    (h : Within (a.property key) b) (h' : Within (a.property key') b) : key = key' := by
  by_cases ha : a = ""
  · subst ha
    exact Address.eq_of_within hkey.2 hkey'.2 h h'
  · exact eq_of_within_property ha hkey.2 hkey'.2 h h'

/-- The address of a property is not the one of its parent. -/
theorem IsPart.property_ne_self (hkey : IsPart key) (a : Address) : a.property key ≠ a := by
  by_cases ha : a = ""
  · subst ha
    exact hkey.1
  · exact ne_of_below (below_property ha key)

theorem takeWhile_append_part {key rest : List Char} (hrest : ∀ c ∈ rest.head?, c = '.') :
    (key ++ rest).takeWhile (· ≠ '.') = key.takeWhile (· ≠ '.') := by
  induction key with
  | nil => exact takeWhile_part (List.not_mem_nil) hrest
  | cons c key ih => rw [List.cons_append, List.takeWhile_cons, List.takeWhile_cons, ih]

/-- Keys of several parts do not share addresses if their first parts differ. -/
theorem firstPart_eq_of_within_property (ha : a ≠ "") (h : Within (a.property key) b)
    (h' : Within (a.property key') b) :
    key.toList.takeWhile (· ≠ '.') = key'.toList.takeWhile (· ≠ '.') := by
  obtain ⟨rest, hb, hrest⟩ := h.exists_rest
  obtain ⟨rest', hb', hrest'⟩ := h'.exists_rest
  rw [property_of_ne ha, String.toList_append, List.append_assoc] at hb hb'
  have hpart := @takeWhile_append_part key.toList rest hrest
  have hpart' := @takeWhile_append_part key'.toList rest' hrest'
  rw [← hpart, ← hpart', List.append_cancel_left (hb.symm.trans hb')]

/-- A property of a property. -/
theorem property_property (hkey : key ≠ "") (a : Address) (key' : String) :
    (a.property key).property key' = a.property (key ++ "." ++ key') := by
  by_cases ha : a = ""
  · subst ha
    exact property_of_ne hkey key'
  · rw [property_of_ne (property_ne ha key), property_of_ne ha, property_of_ne ha]
    simp only [String.append_assoc]

theorem dot_not_mem_toString (n : Nat) : '.' ∉ (toString n).toList := by
  intro h
  have hdigits : '.' ∈ Nat.toDigits 10 n := by rwa [← Nat.toList_repr]
  have hdigit := Nat.isDigit_of_mem_toDigits (by decide) (by decide) hdigits
  exact absurd hdigit (by decide)

theorem toString_inj {m n : Nat} (h : toString m = toString n) : m = n := by
  have hdigits : Nat.toDigits 10 m = Nat.toDigits 10 n := by
    rw [← Nat.toList_repr, ← Nat.toList_repr]
    exact congrArg String.toList h
  rw [← Nat.ofDigitChars_ten_toDigits (n := m), hdigits, Nat.ofDigitChars_ten_toDigits]

theorem branch_eq (a : Address) (index : Nat) :
    a.branch index = (a.property branchMark).property (toString index) :=
  (property_property (by decide) a (toString index)).symm

/-- Branches of one union do not share addresses. -/
theorem eq_of_within_branch {index index' : Nat} (h : Within (a.branch index) b)
    (h' : Within (a.branch index') b) : index = index' := by
  rw [branch_eq] at h h'
  exact toString_inj (eq_of_within_property (property_ne_of_key (by decide) a)
    (dot_not_mem_toString _) (dot_not_mem_toString _) h h')

/-! ## Moving addresses -/

def IsTail (s : String) : Prop := s = "" ∨ ∃ rest : String, s = "." ++ rest

def Moves (p q a b : Address) : Prop := ∃ s, IsTail s ∧ a = p ++ s ∧ b = q ++ s

variable {p q : Address}

theorem within_iff : Within p a ↔ ∃ s, IsTail s ∧ a = p ++ s := by
  constructor
  · rintro (rfl | ⟨rest, rfl⟩)
    · exact ⟨"", .inl rfl, by simp⟩
    · exact ⟨"." ++ rest, .inr ⟨rest, rfl⟩, by simp [String.append_assoc]⟩
  · rintro ⟨s, rfl | ⟨rest, rfl⟩, rfl⟩
    · exact .inl (by simp)
    · exact .inr ⟨rest, by simp [String.append_assoc]⟩

theorem moves_base (p q : Address) : Moves p q p q := ⟨"", .inl rfl, by simp, by simp⟩

theorem Moves.property (hp : p ≠ "") (hq : q ≠ "") (key : String) (h : Moves p q a b) :
    Moves p q (a.property key) (b.property key) := by
  obtain ⟨s, hs, rfl, rfl⟩ := h
  have hne : ∀ {r : Address}, r ≠ "" → r ++ s ≠ "" := fun hr he => hr (by simp_all)
  have htail : IsTail (s ++ "." ++ key) := by
    rcases hs with rfl | ⟨rest, rfl⟩
    · exact .inr ⟨key, by simp⟩
    · exact .inr ⟨rest ++ "." ++ key, by simp [String.append_assoc]⟩
  refine ⟨s ++ "." ++ key, htail, ?_, ?_⟩
  · rw [property_of_ne (hne hp), String.append_assoc, String.append_assoc, String.append_assoc]
  · rw [property_of_ne (hne hq), String.append_assoc, String.append_assoc, String.append_assoc]

theorem moves_biUnique (p q : Address) : Relator.BiUnique (Moves p q) := by
  constructor
  · rintro a b c ⟨s, _, rfl, hc⟩ ⟨s', _, rfl, hc'⟩
    rw [(String.append_right_inj q).mp (hc.symm.trans hc')]
  · rintro a b c ⟨s, _, ha, rfl⟩ ⟨s', _, ha', rfl⟩
    rw [(String.append_right_inj p).mp (ha.symm.trans ha')]

theorem moves_self_iff : Moves p p a b ↔ a = b ∧ Within p a := by
  rw [within_iff]
  constructor
  · rintro ⟨s, hs, rfl, rfl⟩
    exact ⟨rfl, s, hs, rfl⟩
  · rintro ⟨rfl, s, hs, rfl⟩
    exact ⟨s, hs, rfl, rfl⟩

theorem exists_moves_iff : (∃ b, Moves p q a b) ↔ Within p a := by
  rw [within_iff]
  constructor
  · rintro ⟨_, s, hs, rfl, _⟩
    exact ⟨s, hs, rfl⟩
  · rintro ⟨s, hs, rfl⟩
    exact ⟨q ++ s, s, hs, rfl, rfl⟩

end Lexicon.Address
