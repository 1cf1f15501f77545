import Lexicon.Proofs.Entries
import Lexicon.Typed

/-!
# What typed reading keeps

A record is read field by field, so what every field keeps holds of the record (`ofFields_induct`,
`ofJson_induct`), and a size that no field raises by more than its own weight is at most the weight
of the value (`ofFields_measure`, `ofJson_measure`). A part of the record that one field alone sets
is what the last of these fields gives (`last_of_ofFields`), and says what that field does
(`field_of_ofFields`).
-/

namespace Lexicon

section
variable {ε α β : Type}

theorem bind_eq_ok {x : Except ε α} {f : α → Except ε β} {b : β} :
    (x >>= f) = .ok b ↔ ∃ a, x = .ok a ∧ f a = .ok b := by
  cases x with
  | error e => exact ⟨nofun, nofun⟩
  | ok a => exact ⟨fun h => ⟨a, rfl, h⟩, fun ⟨_, ha, h⟩ => by cases ha; exact h⟩

theorem map_eq_ok {x : Except ε α} {f : α → β} {b : β} :
    (f <$> x) = .ok b ↔ ∃ a, x = .ok a ∧ f a = b := by
  cases x with
  | error e => exact ⟨nofun, nofun⟩
  | ok a =>
    constructor
    · intro h
      exact ⟨a, rfl, Except.ok.inj h⟩
    · rintro ⟨_, ha, rfl⟩
      cases ha
      rfl

theorem mapError_eq_ok {ε' : Type} {x : Except ε α} {f : ε → ε'} {a : α} :
    x.mapError f = .ok a ↔ x = .ok a := by
  cases x with
  | error e => exact ⟨nofun, nofun⟩
  | ok b => simp [Except.mapError]

/-- A result that passes a test is there. -/
theorem exists_of_any {x : Except ε α} {test : α → Bool} (h : x.toOption.any test = true) :
    ∃ a, x = .ok a ∧ test a = true := by
  cases x with
  | error e => exact nomatch h
  | ok a => exact ⟨a, rfl, h⟩

end

namespace Json

theorem weight_pos (x : Json) : 0 < x.weight := by
  cases x <;> simp only [weight] <;> omega

theorem weight_le_weightFields {fields : Entries Json} {e : String × Json} (he : e ∈ fields) :
    e.2.weight ≤ weightFields fields := by
  induction fields with
  | nil => simp at he
  | cons f rest ih =>
    rw [weightFields]
    rcases List.mem_cons.mp he with rfl | he
    · exact Nat.le_add_right _ _
    · have := ih he
      omega

theorem weightFields_zip_le (names : List String) (elements : List Json) :
    weightFields (names.zip elements) ≤ weightElements elements := by
  induction names generalizing elements with
  | nil => simp [weightFields]
  | cons name rest ih =>
    cases elements with
    | nil => simp [weightFields]
    | cons x xs =>
      have := ih xs
      simp only [List.zip_cons_cons, weightFields, weightElements]
      omega

end Json

namespace Read

theorem optional_eq_ok {α : Type} {read : Read α} {x : Json} {o : Option α}
    (h : optional read x = .ok o) {a : α} (ha : a ∈ o) : read x = .ok a := by
  obtain rfl : o = some a := ha
  cases x with
  | null => exact nomatch h
  | _ =>
    obtain ⟨b, hb, hab⟩ := map_eq_ok.mp h
    rw [hb, Option.some.inj hab]

end Read

namespace FieldReader

variable {σ : Type} (r : FieldReader σ) {s : σ}

theorem foldlM_induct {P : σ → Prop} {fields : Entries Json}
    (step : ∀ s key x s', (key, x) ∈ fields → P s → r.read s key x = .ok s' → P s') {start : σ}
    (hstart : P start) (h : fields.foldlM (fun acc e => r.read acc e.1 e.2) start = .ok s) :
    P s := by
  induction fields generalizing start with
  | nil =>
    obtain rfl : start = s := Except.ok.inj h
    exact hstart
  | cons e rest ih =>
    obtain ⟨next, hnext, hrest⟩ := bind_eq_ok.mp h
    have hP := step start e.1 e.2 next (List.mem_cons_self ..) hstart hnext
    exact ih (fun s key x s' hmem => step s key x s' (List.mem_cons_of_mem _ hmem)) hP hrest

/-- What every field keeps holds of the record that is read. -/
theorem ofFields_induct {P : σ → Prop} (blank : P r.blank) {fields : Entries Json}
    (step : ∀ s key x s', (key, x) ∈ fields → P s → r.read s key x = .ok s' → P s')
    (h : r.ofFields fields = .ok s) : P s :=
  r.foldlM_induct step blank h

theorem foldlM_measure (size : σ → Nat)
    (step : ∀ s key x s', r.read s key x = .ok s' → size s' ≤ size s + x.weight)
    {fields : Entries Json} {start : σ}
    (h : fields.foldlM (fun acc e => r.read acc e.1 e.2) start = .ok s) :
    size s ≤ size start + Json.weightFields fields := by
  induction fields generalizing start with
  | nil =>
    obtain rfl : start = s := Except.ok.inj h
    exact Nat.le_add_right _ _
  | cons e rest ih =>
    obtain ⟨next, hnext, hrest⟩ := bind_eq_ok.mp h
    have hstep := step start e.1 e.2 next hnext
    have hle := ih hrest
    rw [Json.weightFields]
    omega

theorem ofFields_measure (size : σ → Nat)
    (step : ∀ s key x s', r.read s key x = .ok s' → size s' ≤ size s + x.weight)
    {fields : Entries Json} (h : r.ofFields fields = .ok s) :
    size s ≤ size r.blank + Json.weightFields fields :=
  r.foldlM_measure size step h

theorem ofElements_eq_ok {elements : List Json} (h : r.ofElements elements = .ok s) :
    r.ofFields (r.fields.zip elements) = .ok s := by
  obtain ⟨t, ht, h⟩ := bind_eq_ok.mp h
  split at h
  · exact nomatch h
  · rw [ht, ← h]
    rfl

theorem ofJson_induct {P : σ → Prop} (blank : P r.blank)
    (step : ∀ s key x s', P s → r.read s key x = .ok s' → P s') {x : Json}
    (h : r.ofJson x = .ok s) : P s := by
  cases x with
  | object fields => exact r.ofFields_induct blank (fun s key x s' _ => step s key x s') h
  | array elements =>
    exact r.ofFields_induct blank (fun s key x s' _ => step s key x s') (r.ofElements_eq_ok h)
  | _ => exact nomatch h

theorem ofJson_measure (size : σ → Nat)
    (step : ∀ s key x s', r.read s key x = .ok s' → size s' ≤ size s + x.weight) {x : Json}
    (h : r.ofJson x = .ok s) : size s + 1 ≤ size r.blank + x.weight := by
  cases x with
  | object fields =>
    have := r.ofFields_measure size step h
    rw [Json.weight]
    omega
  | array elements =>
    have := r.ofFields_measure size step (r.ofElements_eq_ok h)
    have := Json.weightFields_zip_le r.fields elements
    rw [Json.weight]
    omega
  | _ => exact nomatch h

section
variable {r} {key : String} {fields : Entries Json}

/-- A field that the record does not have can be anything. -/
theorem ofFields_insert (hkey : ∀ s x, r.read s key x = .ok s) (fields : Entries Json) (x y : Json) :
    r.ofFields (fields.insert key x) = r.ofFields (fields.insert key y) := by
  unfold ofFields
  generalize r.blank = start
  induction fields generalizing start with
  | nil => simp only [Entries.insert, List.foldlM_cons, hkey]
  | cons e rest ih =>
    obtain ⟨k, z⟩ := e
    rw [Entries.insert, Entries.insert]
    split
    · simp only [List.foldlM_cons, hkey]
    · rw [List.foldlM_cons, List.foldlM_cons]
      exact congrArg (r.read start k z >>= ·) (funext ih)

/-- What one field alone sets is what its last value says. -/
theorem last_of_ofFields {β : Type} (get : σ → β) {value : Json → β}
    (hread : ∀ s k x t, r.read s k x = .ok t → get t = if k = key then value x else get s)
    (h : r.ofFields fields = .ok s) :
    get s = ((Entries.find? fields.reverse key).map value).getD (get r.blank) := by
  suffices hstart : ∀ start, fields.foldlM (fun acc e => r.read acc e.1 e.2) start = .ok s →
      get s = ((Entries.find? fields.reverse key).map value).getD (get start) from
    hstart r.blank h
  clear h
  intro start h
  induction fields generalizing start with
  | nil =>
    obtain rfl : start = s := Except.ok.inj h
    rfl
  | cons e rest ih =>
    obtain ⟨k, x⟩ := e
    obtain ⟨next, hnext, hrest⟩ := bind_eq_ok.mp h
    rw [ih next hrest, List.reverse_cons, Entries.find?_append, Entries.find?_cons,
      hread start k x next hnext]
    cases Entries.find? rest.reverse key with
    | some y => rfl
    | none =>
      by_cases hk : k = key
      · rw [if_pos hk, if_pos hk]
        rfl
      · rw [if_neg hk, if_neg hk]
        rfl

/-- What one field sets is what its value says, if the keys are distinct. -/
theorem field_of_ofFields {α : Type} (get : σ → Option α) {value? : Json → Option α}
    (hblank : get r.blank = none)
    (hread : ∀ s k x t, r.read s k x = .ok t → get t = if k = key then value? x else get s)
    (hd : fields.Distinct) (h : r.ofFields fields = .ok s) :
    get s = (fields.find? key).bind value? := by
  have hkeys : Entries.Distinct fields.reverse := ((List.reverse_perm _).map Prod.fst).nodup_iff.mpr hd
  rw [last_of_ofFields get hread h, hblank,
    Entries.find?_eq_of_perm (List.reverse_perm fields) hkeys]
  cases fields.find? key <;> rfl

end
end FieldReader
end Lexicon
