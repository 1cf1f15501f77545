import Mathlib
import Lexicon.Entries

/-!
# Key-value lists with distinct keys

Inserting pairs keeps keys distinct (`distinct_ofList`) and changes nothing about a list whose keys
are distinct already (`ofList_eq_self`); the keys stand where they come first (`keys_ofList`). A
list in the order of its keys stays in order (`sorted_put`), and what is looked up in it determines
it (`eq_of_sorted`). Lists with the same keys and related values stay so when related pairs are
inserted (`Related.ofList`).
-/

namespace Lexicon.Entries

variable {α : Type} {entries : Entries α} {key : String} {value : α}

@[simp] theorem keys_nil : keys ([] : Entries α) = [] := rfl

@[simp] theorem keys_cons (e : String × α) (rest : Entries α) :
    keys (e :: rest) = e.1 :: keys rest := rfl

@[simp] theorem keys_append (a b : Entries α) : keys (a ++ b) = keys a ++ keys b :=
  List.map_append

theorem mem_of_find? (h : entries.find? key = some value) : (key, value) ∈ entries := by
  induction entries with
  | nil => simp at h
  | cons e rest ih =>
    obtain ⟨k, v⟩ := e
    rw [find?_cons] at h
    split at h
    · rename_i hk
      obtain rfl := Option.some.inj h
      simp [hk]
    · exact List.mem_cons_of_mem _ (ih h)

theorem ne_of_distinct_cons {e f : String × α} (hd : Distinct (e :: entries)) (hf : f ∈ entries) :
    f.1 ≠ e.1 := by
  intro he
  have hmem : f.1 ∈ entries.keys := List.mem_map_of_mem hf
  exact (List.nodup_cons.mp hd).1 (he ▸ hmem)

theorem ne_of_distinct_append {before after : Entries α}
    (hd : Distinct (before ++ (key, value) :: after)) {e : String × α} (he : e ∈ before ++ after) :
    e.1 ≠ key := by
  have hperm : (before ++ (key, value) :: after).Perm ((key, value) :: (before ++ after)) :=
    List.perm_middle
  have hfirst : Distinct ((key, value) :: (before ++ after)) :=
    (hperm.map Prod.fst).nodup_iff.mp hd
  exact ne_of_distinct_cons hfirst he

theorem Distinct.tail {e : String × α} (hd : Distinct (e :: entries)) : entries.Distinct :=
  (List.nodup_cons.mp hd).2

theorem find?_of_mem (hd : entries.Distinct) (h : (key, value) ∈ entries) :
    entries.find? key = some value := by
  induction entries with
  | nil => simp at h
  | cons e rest ih =>
    obtain ⟨k, v⟩ := e
    rw [find?_cons]
    rcases List.mem_cons.mp h with heq | hmem
    · cases heq
      simp
    · have hne : k ≠ key := (ne_of_distinct_cons hd hmem).symm
      rw [if_neg hne]
      exact ih hd.tail hmem

/-- The order of distinct keys does not matter. -/
theorem find?_eq_of_perm {entries' : Entries α} (h : entries.Perm entries')
    (hd : entries.Distinct) (key : String) : entries.find? key = entries'.find? key := by
  have hkeys : entries.keys.Perm entries'.keys := h.map Prod.fst
  cases hfind : entries.find? key with
  | none =>
    rw [find?_eq_none_iff, hkeys.mem_iff, ← find?_eq_none_iff] at hfind
    exact hfind.symm
  | some value =>
    have hd' : entries'.Distinct := hkeys.nodup_iff.mp hd
    exact (find?_of_mem hd' (h.mem_iff.mp (mem_of_find? hfind))).symm

theorem mem_insert {e : String × α} (h : e ∈ entries.insert key value) :
    e = (key, value) ∨ e ∈ entries := by
  induction entries with
  | nil => exact .inl (by simpa [insert] using h)
  | cons p rest ih =>
    obtain ⟨k, v⟩ := p
    rw [insert] at h
    split at h
    · rcases List.mem_cons.mp h with h | h
      · exact .inl h
      · exact .inr (List.mem_cons_of_mem _ h)
    · rcases List.mem_cons.mp h with rfl | h
      · exact .inr (List.mem_cons_self ..)
      · rcases ih h with h | h
        · exact .inl h
        · exact .inr (List.mem_cons_of_mem _ h)

theorem keys_insert (entries : Entries α) (key : String) (value : α) :
    (entries.insert key value).keys =
      if key ∈ entries.keys then entries.keys else entries.keys ++ [key] := by
  induction entries with
  | nil => simp [insert, keys]
  | cons p rest ih =>
    obtain ⟨k, v⟩ := p
    simp only [keys] at ih
    rw [insert]
    by_cases hk : k = key
    · simp [keys, hk]
    · have hne : key ≠ k := fun h => hk h.symm
      by_cases hmem : key ∈ List.map Prod.fst rest
      · simp [keys, hk, hmem, ih]
      · simp [keys, hk, hmem, hne, ih]

theorem distinct_insert (h : entries.Distinct) (key : String) (value : α) :
    (entries.insert key value).Distinct := by
  rw [Distinct, keys_insert]
  split
  · exact h
  · rename_i hk
    refine List.nodup_append.mpr ⟨h, by simp, ?_⟩
    rintro a ha b hb rfl
    obtain rfl : a = key := by simpa using hb
    exact hk ha

theorem insert_of_not_mem (h : key ∉ entries.keys) :
    entries.insert key value = entries ++ [(key, value)] := by
  induction entries with
  | nil => rfl
  | cons p rest ih =>
    obtain ⟨k, v⟩ := p
    simp only [keys, List.map_cons, List.mem_cons, not_or] at h
    rw [insert, if_neg (Ne.symm h.1), ih h.2]
    rfl

theorem distinct_insertAll (h : entries.Distinct) (added : Entries α) :
    (entries.insertAll added).Distinct := by
  induction added generalizing entries with
  | nil => exact h
  | cons e rest ih => exact ih (distinct_insert h e.1 e.2)

theorem distinct_ofList (pairs : List (String × α)) : (ofList pairs).Distinct :=
  @distinct_insertAll α [] List.nodup_nil pairs

theorem mem_insertAll {added : Entries α} {e : String × α} (h : e ∈ entries.insertAll added) :
    e ∈ entries ∨ e ∈ added := by
  induction added generalizing entries with
  | nil => exact .inl h
  | cons p rest ih =>
    rcases ih h with h | h
    · rcases mem_insert h with rfl | h
      · exact .inr (List.mem_cons_self ..)
      · exact .inl h
    · exact .inr (List.mem_cons_of_mem _ h)

theorem mem_of_mem_ofList {pairs : List (String × α)} {e : String × α} (h : e ∈ ofList pairs) :
    e ∈ pairs := by
  rcases mem_insertAll h with h | h
  · simp at h
  · exact h

theorem insertAll_of_distinct {added : Entries α} (h : (entries ++ added).Distinct) :
    entries.insertAll added = entries ++ added := by
  induction added generalizing entries with
  | nil => exact (List.append_nil _).symm
  | cons e rest ih =>
    obtain ⟨k, v⟩ := e
    have hk : k ∉ entries.keys := by
      intro hk
      simp only [Distinct, keys, List.map_append, List.map_cons] at h
      exact (List.nodup_append.mp h).2.2 k hk k (List.mem_cons_self ..) rfl
    have happ : entries ++ (k, v) :: rest = entries ++ [(k, v)] ++ rest := by simp
    rw [happ] at h ⊢
    rw [← ih h, ← insert_of_not_mem hk]
    rfl

theorem ofList_eq_self {pairs : Entries α} (h : pairs.Distinct) : ofList pairs = pairs :=
  @insertAll_of_distinct α [] pairs h

/-- Keys stay in the order in which they first occur. -/
theorem keys_insertAll (h : entries.Distinct) (added : Entries α) :
    (entries.insertAll added).keys = entries.keys ++ (added.keys.removeAll entries.keys).eraseDups := by
  induction added generalizing entries with
  | nil => simp [insertAll]
  | cons e rest ih =>
    change ((entries.insert e.1 e.2).insertAll rest).keys = _
    rw [ih (distinct_insert h e.1 e.2), keys_insert, keys_cons, List.cons_removeAll]
    by_cases hmem : e.1 ∈ entries.keys
    · rw [if_pos hmem, if_neg (by simpa using hmem)]
    · have hothers : (keys rest).removeAll (entries.keys ++ [e.1]) =
          ((keys rest).removeAll entries.keys).filter fun k => !k == e.1 := by
        rw [List.removeAll, List.removeAll, List.filter_filter]
        exact List.filter_congr fun k _ => by grind
      rw [if_neg hmem, if_pos (by simpa using hmem), List.eraseDups_cons, hothers,
        List.append_assoc, List.singleton_append]

theorem keys_ofList (pairs : List (String × α)) : (ofList pairs).keys = (keys pairs).eraseDups := by
  have hnil : Distinct ([] : Entries α) := List.nodup_nil
  rw [ofList, keys_insertAll hnil, keys_nil, List.nil_append, List.removeAll_nil]

theorem find?_append (entries added : Entries α) (key : String) :
    (entries ++ added).find? key = (entries.find? key).or (added.find? key) := by
  induction entries with
  | nil => rfl
  | cons e rest ih =>
    obtain ⟨k, v⟩ := e
    rw [List.cons_append, find?_cons, find?_cons, ih]
    split <;> rfl

theorem find?_insertAll_of_not_mem {added : Entries α} (h : key ∉ added.keys) :
    (entries.insertAll added).find? key = entries.find? key := by
  induction added generalizing entries with
  | nil => rfl
  | cons e rest ih =>
    simp only [keys_cons, List.mem_cons, not_or] at h
    change ((entries.insert e.1 e.2).insertAll rest).find? key = _
    rw [ih h.2, find?_insert, if_neg (Ne.symm h.1)]

theorem find?_insertAll_of_find? {added : Entries α} (hd : added.Distinct)
    (h : added.find? key = some value) : (entries.insertAll added).find? key = some value := by
  induction added generalizing entries with
  | nil => simp at h
  | cons e rest ih =>
    obtain ⟨k, v⟩ := e
    obtain ⟨hk, hrest⟩ := List.nodup_cons.mp hd
    change ((entries.insert k v).insertAll rest).find? key = _
    rw [find?_cons] at h
    split at h
    · rename_i hkey
      subst hkey
      rw [find?_insertAll_of_not_mem hk, find?_insert, if_pos rfl]
      exact h
    · exact ih hrest h

def Sorted (entries : Entries α) : Prop := entries.keys.Pairwise (· < ·)

theorem sorted_nil : Sorted ([] : Entries α) := List.Pairwise.nil

theorem Sorted.distinct (h : entries.Sorted) : entries.Distinct := h.imp ne_of_lt

theorem mem_of_mem_put {e : String × α} (h : e ∈ entries.put key value) :
    e = (key, value) ∨ e ∈ entries := by
  induction entries with
  | nil => exact .inl (List.mem_singleton.mp h)
  | cons f rest ih =>
    rw [put] at h
    split at h
    · rcases List.mem_cons.mp h with rfl | hmem
      · exact .inl rfl
      · exact .inr (List.mem_cons_of_mem _ hmem)
    · split at h
      · exact List.mem_cons.mp h
      · rcases List.mem_cons.mp h with rfl | hmem
        · exact .inr (List.mem_cons_self ..)
        · exact (ih hmem).imp_right (List.mem_cons_of_mem _)

theorem mem_keys_put {k : String} :
    k ∈ (entries.put key value).keys ↔ k = key ∨ k ∈ entries.keys := by
  rw [← not_iff_not, ← find?_eq_none_iff, find?_put, not_or, ← find?_eq_none_iff]
  by_cases hk : key = k
  · simp [hk]
  · simp [hk, Ne.symm hk]

/-- Where a key is put depends on the keys only. -/
theorem keys_put_congr {β : Type} {others : Entries β} (h : entries.keys = others.keys)
    (key : String) (x : α) (y : β) :
    (entries.put key x).keys = (others.put key y).keys := by
  induction entries generalizing others with
  | nil =>
    obtain rfl := List.map_eq_nil_iff.mp h.symm
    rfl
  | cons e rest ih =>
    obtain ⟨e', rest', rfl, hkey, hrest⟩ := List.map_eq_cons_iff.mp h.symm
    obtain ⟨k, v⟩ := e
    obtain ⟨k', v'⟩ := e'
    obtain rfl : k' = k := hkey
    have hrest : keys rest = keys rest' := hrest.symm
    unfold put
    split
    · rw [keys_cons, keys_cons, hrest]
    · split
      · rw [keys_cons, keys_cons, keys_cons, keys_cons, hrest]
      · rw [keys_cons, keys_cons, ih hrest]

theorem sorted_put (h : entries.Sorted) (key : String) (value : α) :
    (entries.put key value).Sorted := by
  induction entries with
  | nil => exact List.pairwise_singleton _ key
  | cons e rest ih =>
    obtain ⟨k, v⟩ := e
    obtain ⟨hk, hrest⟩ := List.pairwise_cons.mp h
    rw [put]
    split
    · rename_i heq
      exact heq ▸ h
    · rename_i hne
      split
      · rename_i hlt
        refine List.pairwise_cons.mpr ⟨fun other hother => ?_, h⟩
        rcases List.mem_cons.mp hother with rfl | hother
        · exact hlt
        · exact lt_trans hlt (hk other hother)
      · rename_i hle
        have hlt : k < key := lt_of_le_of_ne (not_lt.mp hle) hne
        refine List.pairwise_cons.mpr ⟨fun other hother => ?_, ih hrest⟩
        rcases mem_keys_put.mp hother with rfl | hother
        · exact hlt
        · exact hk other hother

theorem find?_tail_of_sorted {k : String} {v : α} (h : Sorted ((k, v) :: entries)) (key : String) :
    entries.find? key = if k = key then none else find? ((k, v) :: entries) key := by
  rw [find?_cons]
  split
  · rename_i heq
    rw [find?_eq_none_iff, ← heq]
    exact fun hmem => lt_irrefl k ((List.pairwise_cons.mp h).1 k hmem)
  · rfl

/-- The least key of a list is the first one. -/
theorem le_of_find?_of_sorted {k : String} {v : α} (h : Sorted ((k, v) :: entries))
    (hfind : find? ((k, v) :: entries) key ≠ none) : k ≤ key := by
  rw [Ne, find?_eq_none_iff, not_not, keys_cons, List.mem_cons] at hfind
  rcases hfind with rfl | hmem
  · exact le_refl key
  · exact le_of_lt ((List.pairwise_cons.mp h).1 key hmem)

/-- Sorted lists with the same values at all keys are the same. -/
theorem eq_of_sorted {entries' : Entries α} (h : entries.Sorted) (h' : entries'.Sorted)
    (hfind : ∀ key, entries.find? key = entries'.find? key) : entries = entries' := by
  induction entries generalizing entries' with
  | nil =>
    cases entries' with
    | nil => rfl
    | cons e' rest' =>
      have hhead := hfind e'.1
      simp [find?] at hhead
  | cons e rest ih =>
    obtain ⟨k, v⟩ := e
    cases entries' with
    | nil =>
      have hhead := hfind k
      simp [find?] at hhead
    | cons e' rest' =>
      obtain ⟨k', v'⟩ := e'
      have hk : k = k' := by
        have hle : k ≤ k' := le_of_find?_of_sorted h (by rw [hfind]; simp [find?])
        have hge : k' ≤ k := le_of_find?_of_sorted h' (by rw [← hfind]; simp [find?])
        exact le_antisymm hle hge
      subst hk
      have hv : v = v' := by simpa [find?] using hfind k
      subst hv
      have hrest : rest = rest' := ih (List.pairwise_cons.mp h).2 (List.pairwise_cons.mp h').2
        fun key => by rw [find?_tail_of_sorted h, find?_tail_of_sorted h', hfind]
      rw [hrest]

/-! ## Related values -/

def Related {β : Type} (R : α → β → Prop) : Entries α → Entries β → Prop :=
  List.Forall₂ fun e e' => e.1 = e'.1 ∧ R e.2 e'.2

namespace Related

variable {β : Type} {R : α → β → Prop} {others : Entries β}

theorem refl {R : α → α → Prop} (hR : ∀ x, R x x) (entries : Entries α) : entries.Related R entries :=
  List.forall₂_same.mpr fun e _ => ⟨rfl, hR e.2⟩

theorem find? (h : entries.Related R others) (key : String) :
    Option.Rel R (entries.find? key) (others.find? key) := by
  induction h with
  | nil => exact .none
  | @cons e e' rest rest' he _ ih =>
    rw [find?_cons, find?_cons, he.1]
    split
    · exact .some he.2
    · exact ih

theorem insert (h : entries.Related R others) (key : String) {x : α} {y : β} (hxy : R x y) :
    (entries.insert key x).Related R (others.insert key y) := by
  induction h with
  | nil => exact .cons ⟨rfl, hxy⟩ .nil
  | @cons e e' rest rest' he hrest ih =>
    unfold Entries.insert
    rw [he.1]
    split
    · exact .cons ⟨rfl, hxy⟩ hrest
    · exact .cons ⟨rfl, he.2⟩ ih

theorem insertAll (h : entries.Related R others) {added : Entries α} {added' : Entries β}
    (hadded : added.Related R added') :
    (entries.insertAll added).Related R (others.insertAll added') := by
  induction hadded generalizing entries others with
  | nil => exact h
  | @cons e e' rest rest' he _ ih =>
    obtain ⟨key, x⟩ := e
    obtain ⟨key', y⟩ := e'
    obtain ⟨rfl, hxy⟩ := he
    exact ih (h.insert key hxy)

theorem ofList (h : entries.Related R others) :
    (Entries.ofList entries).Related R (Entries.ofList others) := by
  have hnil : Related R ([] : Entries α) ([] : Entries β) := .nil
  exact hnil.insertAll h

theorem eq {others : Entries α} (h : entries.Related Eq others) : others = entries := by
  have heq : List.Forall₂ Eq entries others := h.imp fun _ _ he => Prod.ext he.1 he.2
  rw [List.forall₂_eq_eq_eq] at heq
  exact heq.symm

end Related

/-- Lists with the same keys are related if the values are that stand under the same key. -/
theorem forall₂_of_keys {β : Type} {R : String → α → β → Prop} {others : Entries β}
    (hkeys : others.keys = entries.keys)
    (h : ∀ key x y, (key, x) ∈ entries → (key, y) ∈ others → R key x y) :
    List.Forall₂ (fun e e' => e.1 = e'.1 ∧ R e.1 e.2 e'.2) entries others := by
  induction entries generalizing others with
  | nil =>
    obtain rfl := List.map_eq_nil_iff.mp hkeys
    exact .nil
  | cons e rest ih =>
    obtain ⟨e', rest', rfl, hkey, htail⟩ := List.map_eq_cons_iff.mp hkeys
    obtain ⟨key, x⟩ := e
    obtain ⟨key', y⟩ := e'
    obtain rfl : key' = key := hkey
    exact .cons ⟨rfl, h key' x y (List.mem_cons_self ..) (List.mem_cons_self ..)⟩
      (ih htail fun key x y hx hy => h key x y (List.mem_cons_of_mem _ hx) (List.mem_cons_of_mem _ hy))

end Lexicon.Entries
