/-!
# Key-value lists

`Entries α` is a list of pairs read as a finite map: the first pair with a key counts. `insert`
keeps the position of a key that is present and adds a new one at the end, `put` keeps a list in
the order of its keys.
-/

namespace Lexicon

abbrev Entries (α : Type) := List (String × α)

namespace Entries

variable {α β : Type}

def find? (entries : Entries α) (key : String) : Option α :=
  match entries with
  | [] => none
  | (k, v) :: rest => if k = key then some v else find? rest key

def contains (entries : Entries α) (key : String) : Bool := (entries.find? key).isSome

def keys (entries : Entries α) : List String := entries.map Prod.fst

def values (entries : Entries α) : List α := entries.map Prod.snd

/-- Replaces the value of a key in place, or adds the key at the end. -/
def insert (entries : Entries α) (key : String) (value : α) : Entries α :=
  match entries with
  | [] => [(key, value)]
  | (k, v) :: rest => if k = key then (key, value) :: rest else (k, v) :: insert rest key value

def erase (entries : Entries α) (key : String) : Entries α :=
  match entries with
  | [] => []
  | (k, v) :: rest => if k = key then rest else (k, v) :: erase rest key

/-- Inserts pairs one after the other: a repeated key keeps its first position and its last
value. -/
def insertAll (entries added : Entries α) : Entries α :=
  added.foldl (fun acc e => acc.insert e.1 e.2) entries

def ofList (pairs : List (String × α)) : Entries α := insertAll [] pairs

/-- Replaces the value of a key, or adds the key before the first greater one. -/
def put (entries : Entries α) (key : String) (value : α) : Entries α :=
  match entries with
  | [] => [(key, value)]
  | (k, v) :: rest =>
    if k = key then (key, value) :: rest
    else if key < k then (key, value) :: (k, v) :: rest
    else (k, v) :: put rest key value

def mapValues (f : α → β) (entries : Entries α) : Entries β :=
  entries.map fun e => (e.1, f e.2)

def Distinct (entries : Entries α) : Prop := entries.keys.Nodup

instance (entries : Entries α) : Decidable entries.Distinct :=
  inferInstanceAs (Decidable entries.keys.Nodup)

@[simp] theorem find?_nil (key : String) : find? ([] : Entries α) key = none := rfl

theorem find?_cons (k : String) (v : α) (rest : Entries α) (key : String) :
    find? ((k, v) :: rest) key = if k = key then some v else find? rest key := rfl

theorem find?_insert (entries : Entries α) (key other : String) (value : α) :
    (entries.insert key value).find? other =
      if key = other then some value else entries.find? other := by
  induction entries with
  | nil => simp [insert, find?]
  | cons e rest ih =>
    obtain ⟨k, v⟩ := e
    simp only [insert]
    split <;> simp only [find?_cons, ih] <;> grind

theorem find?_put (entries : Entries α) (key other : String) (value : α) :
    (entries.put key value).find? other =
      if key = other then some value else entries.find? other := by
  induction entries with
  | nil => simp [put, find?]
  | cons e rest ih =>
    obtain ⟨k, v⟩ := e
    simp only [put]
    split
    · simp only [find?_cons]; grind
    · split
      · simp only [find?_cons]
      · simp only [find?_cons, ih]; grind

theorem find?_eq_none_iff (entries : Entries α) (key : String) :
    entries.find? key = none ↔ key ∉ entries.keys := by
  induction entries with
  | nil => simp [keys]
  | cons e rest ih =>
    obtain ⟨k, v⟩ := e
    simp only [keys, List.map_cons, List.mem_cons, not_or] at ih ⊢
    rw [find?_cons, ← ih]
    by_cases h : k = key
    · simp [h]
    · simp [h, Ne.symm h]

end Entries
end Lexicon
