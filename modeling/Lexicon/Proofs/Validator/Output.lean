import Lexicon.Proofs.Binary64
import Lexicon.Proofs.Entries
import Lexicon.Proofs.Validator.Conversion

/-!
# The parts of an output

What a validator puts out is made of what its parts put out. A number keeps its value
(`valueOf?_output`), an object has the outputs of its declared fields (`find?_of_convertFields`),
and a branch of a tagged union gets the discriminator added at most (`restoreTag_some`).
-/

namespace Lexicon

def Kind.parts {ν : Type} : Kind ν → List ν
  | .array items _ _ => [items]
  | .object fields => fields.map Prod.snd
  | .union branches => branches
  | .tagged _ branches _ => branches.map Prod.snd
  | _ => []

namespace Validator

inductive All (P : Validator → Prop) : Validator → Prop
  | intro {v : Validator} (here : P v) (inside : ∀ w ∈ v.kind.parts, All P w) : All P v

variable {P Q : Validator → Prop} {v : Validator}

theorem All.here (h : v.All P) : P v := by
  cases h with
  | intro here _ => exact here

theorem All.inside (h : v.All P) {w : Validator} (hw : w ∈ v.kind.parts) : w.All P := by
  cases h with
  | intro _ inside => exact inside w hw

theorem All.mono (h : v.All P) (hPQ : ∀ w, P w → Q w) : v.All Q := by
  induction h with
  | intro here _ ih => exact .intro (hPQ _ here) ih

theorem All.leaf (here : P v) (h : v.kind.parts = []) : v.All P :=
  .intro here fun w hw => by
    rw [h] at hw
    exact nomatch hw

theorem sizeOf_lt_of_mem_parts {w : Validator} (h : w ∈ v.kind.parts) : sizeOf w < sizeOf v := by
  obtain ⟨kind, optional, nullable, default, description⟩ := v
  rw [mk.sizeOf_spec]
  cases kind with
  | array items minItems maxItems =>
    obtain rfl := List.mem_singleton.mp h
    rw [Kind.array.sizeOf_spec]
    omega
  | object fields =>
    obtain ⟨e, he, rfl⟩ := List.mem_map.mp h
    have hmem := List.sizeOf_lt_of_mem he
    rw [Prod.mk.sizeOf_spec] at hmem
    rw [Kind.object.sizeOf_spec]
    omega
  | union branches =>
    have hmem : sizeOf w < sizeOf branches := List.sizeOf_lt_of_mem h
    rw [Kind.union.sizeOf_spec]
    omega
  | tagged field branches closed =>
    obtain ⟨e, he, rfl⟩ := List.mem_map.mp h
    have hmem := List.sizeOf_lt_of_mem he
    rw [Prod.mk.sizeOf_spec] at hmem
    rw [Kind.tagged.sizeOf_spec]
    omega
  | _ => exact absurd h List.not_mem_nil

/-- What holds of a validator if it holds of those inside it holds of all validators. -/
theorem induction_on_parts (h : ∀ v : Validator, (∀ w ∈ v.kind.parts, P w) → P v) (v : Validator) :
    P v :=
  h v fun w _ => induction_on_parts h w
termination_by sizeOf v
decreasing_by exact sizeOf_lt_of_mem_parts ‹_›

end Validator

namespace NumberRules

variable {rules : NumberRules} {a b : Json} {x y : Binary64}

/-- Only the value of a number is restricted. -/
theorem admits_congr (ha : rules.valueOf? a = some x) (hb : rules.valueOf? b = some y)
    (h : x.value = y.value) : rules.admits a = rules.admits b := by
  have hminimum : (fun m : Binary64 => decide (m ≤ x)) = fun m => decide (m ≤ y) := by
    funext m
    rw [decide_eq_decide, m.le_iff, m.le_iff, h]
  have hmaximum : (fun m : Binary64 => decide (x ≤ m)) = fun m => decide (y ≤ m) := by
    funext m
    rw [decide_eq_decide, x.le_iff, y.le_iff, h]
  have hsame : x.same = y.same := by
    funext m
    unfold Binary64.same
    rw [h]
  unfold admits
  rw [ha, hb]
  dsimp only
  rw [x.isWhole_eq, y.isWhole_eq, h, hminimum, hmaximum, hsame]

/-- An integer is put out where integers are wanted and the number is one of 64 bits. -/
def Integral (rules : NumberRules) (x : Binary64) : Prop :=
  rules.whole = true ∧ x.isWhole = true ∧ Binary64.ofInt (-(Word.size 63 : Int)) ≤ x ∧
    x ≤ Binary64.ofInt (Word.size 63)

theorem output_of_integral (h : rules.Integral x) :
    rules.output x = .integer (min x.truncate (Word.size 63 - 1)) := by
  obtain ⟨hwhole, hx, hlower, hupper⟩ := h
  unfold output
  rw [hwhole, hx, decide_eq_true hlower, decide_eq_true hupper]
  rfl

theorem output_of_not_integral (h : ¬ rules.Integral x) : rules.output x = .float x := by
  unfold output
  refine if_neg fun hcond => h ?_
  simp only [Bool.and_eq_true, decide_eq_true_eq] at hcond
  exact ⟨hcond.1.1.1, hcond.1.1.2, hcond.1.2, hcond.2⟩

theorem Integral.congr (h : rules.Integral x) (hxy : x.value = y.value) : rules.Integral y := by
  obtain ⟨hwhole, hx, hlower, hupper⟩ := h
  rw [Binary64.isWhole_eq, hxy, ← Binary64.isWhole_eq] at hx
  rw [Binary64.le_iff, hxy] at hlower hupper
  exact ⟨hwhole, hx, hlower, hupper⟩

/-- The integer for a whole number has its value, also where rounding took the number out of the
range of the word. -/
theorem Integral.value_ofInt (h : rules.Integral x) :
    (Binary64.ofInt (min x.truncate (Word.size 63 - 1))).value = x.value := by
  obtain ⟨-, hx, -, hupper⟩ := h
  have hvalue := Binary64.truncate_mul_one hx
  rw [Binary64.le_iff, Binary64.value_ofInt_size, ← hvalue] at hupper
  have hle : x.truncate ≤ Word.size 63 :=
    Int.le_of_mul_le_mul_right hupper (Int.natCast_pos.mpr Binary64.one_pos)
  by_cases hlast : x.truncate = Word.size 63
  · rw [← hvalue, hlast, min_eq_right (by omega), Binary64.value_ofInt_lastWord]
  · rw [min_eq_left (by omega), Binary64.value_ofInt_truncate hx]

/-- The output is a number with the value that was read. -/
theorem valueOf?_output (rules : NumberRules) (x : Binary64) :
    ∃ n : Number, rules.output x = .number n ∧ n.toBinary64.value = x.value := by
  by_cases h : rules.Integral x
  · exact ⟨_, output_of_integral h, h.value_ofInt⟩
  · exact ⟨_, output_of_not_integral h, rfl⟩

/-- Reading an output gives the same output. -/
theorem output_of_output {n : Number} (h : rules.output x = .number n) :
    rules.output n.toBinary64 = rules.output x := by
  by_cases hx : rules.Integral x
  · obtain ⟨m, hm, hvalue⟩ := rules.valueOf?_output x
    obtain rfl : n = m := by simpa using h.symm.trans hm
    have htruncate : n.toBinary64.truncate = x.truncate := by
      unfold Binary64.truncate
      rw [hvalue]
    rw [output_of_integral (hx.congr hvalue.symm), output_of_integral hx, htruncate]
  · rw [output_of_not_integral hx] at h
    obtain rfl : Number.float x = n := by simpa [Json.float] using h
    rfl

/-- The output is a number that is admitted as well. -/
theorem exists_of_convert (h : (Kind.number rules).convert? a = some b) :
    ∃ x n, rules.valueOf? a = some x ∧ b = .number n ∧ rules.output x = b ∧
      rules.admits b = true := by
  rw [Kind.convert?] at h
  by_cases hadmits : rules.admits a = true
  · rw [if_pos hadmits] at h
    obtain ⟨x, hx, rfl⟩ := Option.map_eq_some_iff.mp h
    obtain ⟨n, hn, hvalue⟩ := rules.valueOf?_output x
    refine ⟨x, n, hx, hn, rfl, ?_⟩
    rw [hn, ← admits_congr hx (b := .number n) rfl hvalue.symm, hadmits]
  · rw [if_neg hadmits] at h
    exact nomatch h

end NumberRules

theorem mapM_eq_some_iff {α β : Type} {f : α → Option β} {xs : List α} {ys : List β} :
    xs.mapM f = some ys ↔ xs.map f = ys.map some := by
  induction xs generalizing ys with
  | nil => cases ys <;> simp
  | cons x rest ih =>
    rw [List.mapM_cons, Option.bind_eq_bind, Option.bind_eq_some_iff]
    cases ys with
    | nil =>
      constructor
      · rintro ⟨z, -, hrest⟩
        obtain ⟨outputs, -, heq⟩ := Option.bind_eq_some_iff.mp hrest
        exact nomatch heq
      · exact nofun
    | cons y others =>
      rw [List.map_cons, List.map_cons, List.cons.injEq, ← ih]
      constructor
      · rintro ⟨z, hz, hrest⟩
        obtain ⟨outputs, houtputs, heq⟩ := Option.bind_eq_some_iff.mp hrest
        cases heq
        exact ⟨hz, houtputs⟩
      · rintro ⟨hy, hothers⟩
        exact ⟨y, hy, Option.bind_eq_some_iff.mpr ⟨others, hothers, rfl⟩⟩

theorem isSome_mapM {α β : Type} {f : α → Option β} {xs : List α} (h : ∀ x ∈ xs, (f x).isSome) :
    (xs.mapM f).isSome := by
  induction xs with
  | nil => rfl
  | cons x rest ih =>
    obtain ⟨hx, hrest⟩ := List.forall_mem_cons.mp h
    obtain ⟨y, hy⟩ := Option.isSome_iff_exists.mp hx
    obtain ⟨ys, hys⟩ := Option.isSome_iff_exists.mp (ih hrest)
    rw [List.mapM_cons, hy, hys]
    rfl

theorem Kind.convert?_array {items : Validator} {minItems maxItems : Option Nat} {x y : Json} :
    (Kind.array items minItems maxItems).convert? x = some y ↔
      ∃ elements outputs, x = .array elements ∧ y = .array outputs ∧
        minItems.all (· ≤ elements.length) = true ∧ maxItems.all (elements.length ≤ ·) = true ∧
        elements.map items.convert? = outputs.map some := by
  cases x with
  | array elements =>
    rw [Kind.convert?]
    constructor
    · intro h
      split_ifs at h with hbounds
      obtain ⟨outputs, houtputs, rfl⟩ := Option.map_eq_some_iff.mp h
      rw [Bool.and_eq_true] at hbounds
      exact ⟨elements, outputs, rfl, rfl, hbounds.1, hbounds.2, mapM_eq_some_iff.mp houtputs⟩
    · rintro ⟨_, outputs, heq, rfl, hmin, hmax, houtputs⟩
      cases heq
      rw [hmin, hmax, mapM_eq_some_iff.mpr houtputs]
      rfl
  | _ => exact ⟨nofun, fun ⟨_, _, h, _⟩ => nomatch h⟩

theorem exists_of_mem_outputs {v : Validator} {elements outputs : List Json}
    (h : elements.map v.convert? = outputs.map some) {y : Json} (hy : y ∈ outputs) :
    ∃ x ∈ elements, v.convert? x = some y := by
  have hmem : some y ∈ elements.map v.convert? := h ▸ List.mem_map_of_mem hy
  exact List.mem_map.mp hmem

theorem length_outputs {v : Validator} {elements outputs : List Json}
    (h : elements.map v.convert? = outputs.map some) : elements.length = outputs.length := by
  simpa using congrArg List.length h

section Fields

variable {fields : List (String × Validator)} {values outputs : Entries Json}

theorem Validator.isSome_of_convertField? {v : Validator} {input output : Option Json}
    (h : v.convertField? input = some output) : output.isSome = (input.isSome || v.default.isSome) := by
  rw [← Option.isSome_or]
  unfold Validator.convertField? at h
  cases hvalue : input.or v.default with
  | some value =>
    rw [hvalue] at h
    obtain ⟨y, -, rfl⟩ := Option.map_eq_some_iff.mp h
    rfl
  | none =>
    rw [hvalue] at h
    cases hmissing : v.acceptsMissing with
    | true =>
      rw [hmissing] at h
      cases h
      rfl
    | false =>
      rw [hmissing] at h
      exact nomatch h

/-- There is an output for every field that the value has or that has a default, in the order of
the fields. -/
theorem keys_convertFields (h : convertFields fields values = some outputs) :
    outputs.keys =
      Entries.keys (fields.filter fun e => values.contains e.1 || e.2.default.isSome) := by
  induction fields generalizing outputs with
  | nil =>
    obtain rfl := Option.some.inj h
    rfl
  | cons e rest ih =>
    obtain ⟨key, v⟩ := e
    rw [convertFields_cons, Option.bind_eq_some_iff] at h
    obtain ⟨output, houtput, h⟩ := h
    obtain ⟨others, hothers, rfl⟩ := Option.map_eq_some_iff.mp h
    rw [Entries.keys_append, ih hothers, List.filter_cons, Entries.contains,
      ← Validator.isSome_of_convertField? houtput]
    cases output <;> rfl

theorem keys_of_convertFields (h : convertFields fields values = some outputs) :
    outputs.keys.Sublist (Entries.keys fields) := by
  rw [keys_convertFields h]
  exact List.filter_sublist.map Prod.fst

theorem distinct_of_convertFields (hd : Entries.Distinct fields)
    (h : convertFields fields values = some outputs) : outputs.Distinct :=
  (keys_of_convertFields h).nodup hd

/-- The output for a field is what its validator makes of the value of the key. -/
theorem find?_of_convertFields (hd : Entries.Distinct fields)
    (h : convertFields fields values = some outputs) {key : String} {v : Validator}
    (hmem : (key, v) ∈ fields) :
    v.convertField? (values.find? key) = some (outputs.find? key) := by
  induction fields generalizing outputs with
  | nil => simp at hmem
  | cons e rest ih =>
    obtain ⟨k, w⟩ := e
    rw [convertFields_cons, Option.bind_eq_some_iff] at h
    obtain ⟨output, houtput, h⟩ := h
    obtain ⟨others, hothers, rfl⟩ := Option.map_eq_some_iff.mp h
    have hnone : others.find? k = none := by
      rw [Entries.find?_eq_none_iff]
      exact fun hk => (List.nodup_cons.mp hd).1 ((keys_of_convertFields hothers).subset hk)
    rcases List.mem_cons.mp hmem with heq | hmem
    · cases heq
      cases output with
      | none => exact houtput.trans (congrArg some hnone.symm)
      | some y => exact houtput.trans (congrArg some (if_pos rfl).symm)
    · have hk : k ≠ key := (Entries.ne_of_distinct_cons hd hmem).symm
      rw [ih hd.tail hothers hmem]
      cases output with
      | none => rfl
      | some y => exact congrArg some (if_neg hk).symm

theorem find?_of_convertFields_of_not_mem (h : convertFields fields values = some outputs)
    {key : String} (hkey : key ∉ Entries.keys fields) : outputs.find? key = none :=
  (Entries.find?_eq_none_iff _ _).mpr fun hmem => hkey ((keys_of_convertFields h).subset hmem)

/-- A declared field that the value has is in the output. -/
theorem isSome_find?_of_convertFields (hd : Entries.Distinct fields)
    (h : convertFields fields values = some outputs) {key : String} {v : Validator} {x : Json}
    (hmem : (key, v) ∈ fields) (hx : values.find? key = some x) :
    (outputs.find? key).isSome := by
  have hfield := find?_of_convertFields hd h hmem
  rw [hx, v.convertField?_some] at hfield
  obtain ⟨y, -, hy⟩ := Option.map_eq_some_iff.mp hfield
  rw [← hy]
  rfl

theorem isSome_convertFields
    (h : ∀ e ∈ fields, (e.2.convertField? (values.find? e.1)).isSome) :
    (convertFields fields values).isSome := by
  induction fields with
  | nil => rfl
  | cons e rest ih =>
    obtain ⟨key, v⟩ := e
    obtain ⟨output, houtput⟩ := Option.isSome_iff_exists.mp (h (key, v) (List.mem_cons_self ..))
    rw [convertFields_cons, houtput, Option.bind_some, Option.isSome_map]
    exact ih fun e he => h e (List.mem_cons_of_mem _ he)

/-- The outputs of the fields one by one are the outputs of the fields together. -/
theorem convertFields_eq_some (output : String → Option Json)
    (h : ∀ e ∈ fields, e.2.convertField? (values.find? e.1) = some (output e.1)) :
    convertFields fields values =
      some (fields.flatMap fun e => Json.field? e.1 (output e.1)) := by
  induction fields with
  | nil => rfl
  | cons e rest ih =>
    obtain ⟨key, v⟩ := e
    rw [convertFields_cons, h (key, v) (List.mem_cons_self ..),
      ih fun e he => h e (List.mem_cons_of_mem _ he)]
    rfl

theorem Kind.convert?_object (hd : Entries.Distinct fields) {x y : Json} :
    (Kind.object fields).convert? x = some y ↔
      ∃ values outputs, x = .object values ∧ y = .object outputs ∧
        convertFields fields values = some outputs := by
  cases x with
  | object values =>
    rw [Kind.convert?]
    constructor
    · intro h
      obtain ⟨outputs, houtputs, rfl⟩ := Option.map_eq_some_iff.mp h
      rw [Entries.ofList_eq_self (distinct_of_convertFields hd houtputs)]
      exact ⟨values, outputs, rfl, rfl, houtputs⟩
    · rintro ⟨_, outputs, heq, rfl, houtputs⟩
      cases heq
      rw [houtputs, Option.map_some, Entries.ofList_eq_self (distinct_of_convertFields hd houtputs)]
  | _ => exact ⟨nofun, fun ⟨_, _, h, _⟩ => nomatch h⟩

end Fields

section Branches

variable {branches : List Validator} {tagged : List (String × Validator)} {value y : Json}

theorem exists_of_convertBranch (h : convertBranch branches value = some y) :
    ∃ v ∈ branches, v.convert? value = some y := by
  induction branches with
  | nil => exact nomatch h
  | cons v rest ih =>
    rw [convertBranch] at h
    rcases Option.or_eq_some_iff.mp h with hv | ⟨-, hrest⟩
    · exact ⟨v, List.mem_cons_self .., hv⟩
    · obtain ⟨w, hw, hy⟩ := ih hrest
      exact ⟨w, List.mem_cons_of_mem _ hw, hy⟩

theorem isSome_convertBranch {v : Validator} (hv : v ∈ branches) (h : (v.convert? value).isSome) :
    (convertBranch branches value).isSome := by
  induction branches with
  | nil => simp at hv
  | cons w rest ih =>
    rw [convertBranch, Option.isSome_or]
    rcases List.mem_cons.mp hv with rfl | hv
    · rw [h, Bool.true_or]
    · rw [ih hv, Bool.or_true]

theorem convertAny_eq (tagged : List (String × Validator)) (value : Json) :
    convertAny tagged value = convertBranch (tagged.map Prod.snd) value := by
  induction tagged with
  | nil => rfl
  | cons e rest ih =>
    obtain ⟨name, v⟩ := e
    rw [convertAny, List.map_cons, convertBranch, ih]

theorem convertTagged_eq (field : String) (tagged : List (String × Validator)) (value : Json)
    (tag : String) :
    convertTagged field tagged value tag =
      (Entries.find? tagged tag).map fun v => restoreTag field tag (v.convert? value) := by
  induction tagged with
  | nil => rfl
  | cons e rest ih =>
    obtain ⟨name, v⟩ := e
    rw [convertTagged, Entries.find?_cons, ih]
    split <;> rfl

end Branches

namespace Json

def extend (x : Json) (added : Entries Json) : Json :=
  match x with
  | object fields => object (fields ++ added)
  | x => x

def tag? (x : Json) (field : String) : Option String := (x.get? field).bind string?

theorem extend_nil (x : Json) : x.extend [] = x := by
  cases x with
  | object fields => exact congrArg object (List.append_nil fields)
  | _ => rfl

theorem extend_extend (x : Json) (a b : Entries Json) : (x.extend a).extend b = x.extend (a ++ b) := by
  cases x with
  | object fields => exact congrArg object (List.append_assoc fields a b)
  | _ => rfl

theorem get?_extend_of_get? {x y : Json} {key : String} (added : Entries Json)
    (h : x.get? key = some y) : (x.extend added).get? key = some y := by
  cases x with
  | object fields =>
    change Entries.find? (fields ++ added) key = some y
    rw [Entries.find?_append]
    exact Option.or_eq_some_iff.mpr (.inl h)
  | _ => exact nomatch h

theorem get?_extend_cases {x y : Json} {key : String} {added : Entries Json}
    (h : (x.extend added).get? key = some y) : x.get? key = some y ∨ (key, y) ∈ added := by
  cases x with
  | object fields =>
    change Entries.find? (fields ++ added) key = some y at h
    rw [Entries.find?_append, Option.or_eq_some_iff] at h
    exact h.imp id fun hadded => Entries.mem_of_find? hadded.2
  | _ => exact nomatch h

theorem tag?_eq_some {x : Json} {field tag : String} :
    x.tag? field = some tag ↔ x.get? field = some (string tag) := by
  unfold tag?
  cases x.get? field with
  | none => exact ⟨nofun, nofun⟩
  | some y => cases y <;> simp [string?]

def Dropped (x y : Json) (fields : Entries Json) : Prop :=
  ∀ e ∈ fields, x.get? e.1 = some e.2 ∧ y.get? e.1 = none

theorem dropped_nil (x y : Json) : Dropped x y [] := nofun

theorem Dropped.eq_nil {x : Json} {fields : Entries Json} (h : Dropped x x fields) : fields = [] := by
  rw [List.eq_nil_iff_forall_not_mem]
  intro e he
  obtain ⟨hsome, hnone⟩ := h e he
  rw [hsome] at hnone
  exact nomatch hnone

end Json

/-- A declared field that the value has is in the output, so it has not been dropped. -/
theorem find?_append_dropped {fields : List (String × Validator)} (hd : Entries.Distinct fields)
    {values outputs dropped : Entries Json} (h : convertFields fields values = some outputs)
    (hdropped : Json.Dropped (.object values) (.object outputs) dropped) {e : String × Validator}
    (he : e ∈ fields) : (outputs ++ dropped).find? e.1 = outputs.find? e.1 := by
  rw [Entries.find?_append]
  cases hfind : dropped.find? e.1 with
  | none => rw [Option.or_none]
  | some y =>
    obtain ⟨hvalue, hnone⟩ := hdropped _ (Entries.mem_of_find? hfind)
    have hsome := isSome_find?_of_convertFields hd h he hvalue
    rw [Json.get?_object] at hnone
    rw [hnone] at hsome
    exact nomatch hsome

/-- The discriminator is added to an object that does not have it. -/
theorem restoreTag_some (field tag : String) (y : Json) :
    ∃ added : Entries Json, restoreTag field tag (some y) = some (y.extend added) ∧
      ∀ e ∈ added, e = (field, .string tag) ∧ y.get? field = none := by
  cases y with
  | object fields =>
    by_cases hfield : Entries.contains fields field = true
    · refine ⟨[], ?_, nofun⟩
      rw [Json.extend_nil]
      simp only [restoreTag, hfield, if_true]
    · have hnone : Entries.find? fields field = none := by simpa [Entries.contains] using hfield
      refine ⟨[(field, .string tag)], ?_, fun e he => ⟨List.mem_singleton.mp he, hnone⟩⟩
      rw [Entries.find?_eq_none_iff] at hnone
      simp only [restoreTag, hfield, Entries.insert_of_not_mem hnone]
      rfl
  | _ => exact ⟨[], rfl, nofun⟩

/-- The output of a branch with a tag is the branch's own output, with a field of the value that
this output may have dropped. -/
theorem exists_of_restoreTag {x y z : Json} {field tag : String} (htag : x.tag? field = some tag)
    (h : restoreTag field tag (some z) = some y) :
    ∃ added : Entries Json, y = z.extend added ∧ Json.Dropped x z added := by
  obtain ⟨added, hadded, hfield⟩ := restoreTag_some field tag z
  refine ⟨added, Option.some.inj (h.symm.trans hadded), fun e he => ?_⟩
  obtain ⟨rfl, hnone⟩ := hfield e he
  exact ⟨Json.tag?_eq_some.mp htag, hnone⟩

theorem Json.Dropped.append {x z : Json} {added more : Entries Json} (hadded : Dropped x z added)
    (hmore : Dropped x (z.extend added) more) : Dropped x z (added ++ more) := by
  intro e he
  rcases List.mem_append.mp he with he | he
  · exact hadded e he
  · obtain ⟨hsome, hnone⟩ := hmore e he
    refine ⟨hsome, ?_⟩
    cases hz : z.get? e.1 with
    | none => rfl
    | some w =>
      rw [get?_extend_of_get? added hz] at hnone
      exact nomatch hnone

section Tagged

variable {field : String} {branches : List (String × Validator)} {closed : Bool} {x : Json}

theorem Kind.convert?_branch {tag : String} {v : Validator} (htag : x.tag? field = some tag)
    (hv : Entries.find? branches tag = some v) :
    (Kind.tagged field branches closed).convert? x = restoreTag field tag (v.convert? x) := by
  unfold Json.tag? at htag
  unfold Kind.convert?
  dsimp only
  rw [htag, Option.bind_some, convertTagged_eq, hv]
  rfl

theorem Kind.convert?_noBranch
    (h : ∀ tag, x.tag? field = some tag → Entries.find? branches tag = none) :
    (Kind.tagged field branches closed).convert? x =
      if (x.tag? field).isSome && closed then none
      else convertBranch (branches.map Prod.snd) x := by
  unfold Json.tag? at *
  unfold Kind.convert?
  dsimp only
  rw [convertAny_eq]
  cases htag : (x.get? field).bind Json.string? with
  | none => rfl
  | some tag =>
    rw [Option.bind_some, convertTagged_eq, h tag htag]
    rfl

/-- The output is that of some branch, or that of the branch with the tag of the value, with the
discriminator added. -/
theorem Kind.convert?_tagged_cases {y : Json}
    (h : (Kind.tagged field branches closed).convert? x = some y) :
    ((∀ tag, x.tag? field = some tag → Entries.find? branches tag = none) ∧
      ((x.tag? field).isSome && closed) = false ∧
      convertBranch (branches.map Prod.snd) x = some y) ∨
    ∃ tag v z added, x.tag? field = some tag ∧ Entries.find? branches tag = some v ∧
      v ∈ branches.map Prod.snd ∧ v.convert? x = some z ∧ y = z.extend added ∧
      Json.Dropped x z added := by
  by_cases hbranch : ∀ tag, x.tag? field = some tag → Entries.find? branches tag = none
  · rw [convert?_noBranch hbranch] at h
    split_ifs at h with hclosed
    exact .inl ⟨hbranch, by simpa using hclosed, h⟩
  · simp only [not_forall] at hbranch
    obtain ⟨tag, htag, hfind⟩ := hbranch
    obtain ⟨v, hv⟩ := Option.ne_none_iff_exists'.mp hfind
    rw [convert?_branch htag hv] at h
    cases hconvert : v.convert? x with
    | none =>
      rw [hconvert] at h
      exact nomatch h
    | some z =>
      rw [hconvert] at h
      obtain ⟨added, hy, hadded⟩ := exists_of_restoreTag htag h
      exact .inr ⟨tag, v, z, added, htag, hv, List.mem_map_of_mem (Entries.mem_of_find? hv),
        hconvert, hy, hadded⟩

end Tagged

namespace Validator

def noteFields : Entries Validator :=
  [("count", integer.coerce), ("lang", string.withDefault (.string "en"))]

def noteUnion : Validator := taggedUnion "kind" [("note", object noteFields)] true

theorem all_noteFields {P : Validator → Prop} (hobject : P (object noteFields))
    (hcount : P integer.coerce) (hlang : P (string.withDefault (.string "en"))) :
    (object noteFields).All P :=
  .intro hobject
    (List.forall_mem_cons.mpr ⟨.leaf hcount rfl, List.forall_mem_singleton.mpr (.leaf hlang rfl)⟩)

theorem convert?_count : integer.coerce.convert? (.string "7") = some (.integer 7) := by
  let rules : NumberRules := { whole := true, coerce := true }
  have hkind : integer.coerce.kind = .number rules := rfl
  have hadmits : rules.admits (.string "7") = true := by decide +kernel
  have hvalue : rules.valueOf? (.string "7") = some (Binary64.ofInt 7) := by decide +kernel
  have hintegral : rules.Integral (Binary64.ofInt 7) :=
    ⟨rfl, by decide +kernel, by decide +kernel, by decide +kernel⟩
  have htruncate : min (Binary64.ofInt 7).truncate (Word.size 63 - 1) = 7 := by decide +kernel
  rw [convert?_of_not_nullable rfl, hkind, Kind.convert?, if_pos hadmits, hvalue, Option.map_some,
    NumberRules.output_of_integral hintegral, htruncate]

/-- The text becomes a number, the default is filled in, and the undeclared key is dropped. -/
theorem parse_noteFields :
    (object noteFields).parse (.object [("kind", .string "note"), ("count", .string "7")]) =
      .ok (.object [("count", .integer 7), ("lang", .string "en")]) := by
  have hcount : Entries.find? [("kind", Json.string "note"), ("count", .string "7")] "count" =
      some (.string "7") := rfl
  have hfields : convertFields noteFields [("kind", .string "note"), ("count", .string "7")] =
      some [("count", .integer 7), ("lang", .string "en")] := by
    rw [noteFields, convertFields_cons, hcount, convertField?_some, convert?_count]
    rfl
  rw [parse_eq_ok, convert?_of_not_nullable rfl]
  exact (Kind.convert?_object (by decide)).mpr ⟨_, _, rfl, rfl, hfields⟩

/-- The discriminator goes to the end. -/
theorem parse_noteUnion :
    noteUnion.parse (.object [("kind", .string "note"), ("count", .string "7")]) =
      .ok (.object [("count", .integer 7), ("lang", .string "en"), ("kind", .string "note")]) := by
  have hkind : noteUnion.kind = .tagged "kind" [("note", object noteFields)] true := rfl
  rw [parse_eq_ok, convert?_of_not_nullable rfl, hkind, Kind.convert?_branch rfl rfl,
    parse_eq_ok.mp parse_noteFields]
  rfl

end Validator
end Lexicon
