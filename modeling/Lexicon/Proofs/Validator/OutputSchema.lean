import Lexicon.Proofs.Validator.Output
import Lexicon.Proofs.Validator.SchemaAgreement

/-!
# Schemas describe outputs

Whatever a validator puts out is valid against its schema (`valid_of_parse`). A branch of a tagged
union gets its discriminator back after it has dropped it, and the branch may be a union again. So
the invariant allows for fields of the value that the output has dropped (`Sound`): an object has
the outputs of all fields that it declares and the value has, and the rest is not declared.
-/

namespace Lexicon

open JsonSchema

/-- What the validator puts out is valid, also with fields that it has dropped. -/
def Validator.Sound (v : Validator) : Prop :=
  ∀ {x y : Json} (dropped : Entries Json), v.convert? x = some y → y.Exact →
    Json.Dropped x y dropped → validKeywords v.schema (y.extend dropped) = true

theorem validKeywords_default (default : Option Json) (x : Json) :
    validKeywords (Json.field? "default" default) x = true := by
  cases default with
  | none => exact validKeywords_nil x
  | some y => exact validKeywords_assertion y x (by decide)

/-- Descriptions and defaults restrict nothing. -/
theorem Validator.validKeywords_schema (v : Validator) (x : Json) :
    validKeywords v.schema x = (v.nullable && x.isNull || validKeywords v.kind.schema x) := by
  obtain ⟨kind, optional, nullable, default, description⟩ := v
  rw [Validator.schema, validKeywords_append, validKeywords_append, validKeywords_description,
    validKeywords_default, Bool.and_true, Bool.and_true]
  cases nullable with
  | false => rfl
  | true => exact validKeywords_orNull kind.schema x

namespace JsonSchema

mutual

/-- Values that are the same are equal instances. -/
theorem equal_of_same : ∀ x y : Json, x.same y = true → equal x y = true
  | .null, y, h | .bool _, y, h | .string _, y, h => by cases y <;> exact h
  | .number m, y, h => by
    cases y with
    | number n =>
      rw [equal, beq_iff_eq]
      cases m with
      | integer a =>
        cases n with
        | integer b =>
          obtain rfl : a = b := eq_of_beq h
          rfl
        | float b => exact nomatch h
      | float a =>
        cases n with
        | integer b => exact nomatch h
        | float b => exact (Binary64.same_iff a b).mp h
    | _ => exact nomatch h
  | .array xs, y, h => by
    cases y with
    | array ys => exact equalElements_of_same xs ys h
    | _ => exact nomatch h
  | .object fields, y, h => by
    cases y with
    | object others =>
      rw [Json.same, Bool.and_eq_true] at h
      rw [equal, Bool.and_eq_true]
      exact ⟨h.1, equalFields_of_same fields others h.2⟩
    | _ => exact nomatch h

theorem equalElements_of_same : ∀ xs ys : List Json, Json.sameElements xs ys = true →
    equalElements xs ys = true
  | [], ys, h => by cases ys <;> exact h
  | x :: xs, ys, h => by
    cases ys with
    | nil => exact nomatch h
    | cons y ys =>
      rw [Json.sameElements, Bool.and_eq_true] at h
      rw [equalElements, Bool.and_eq_true]
      exact ⟨equal_of_same x y h.1, equalElements_of_same xs ys h.2⟩

theorem equalFields_of_same : ∀ (fields : List (String × Json)) (others : Entries Json),
    Json.sameFields fields others = true → equalFields fields others = true
  | [], others, _ => rfl
  | (key, x) :: rest, others, h => by
    rw [Json.sameFields, Bool.and_eq_true] at h
    rw [equalFields, Bool.and_eq_true]
    refine ⟨?_, equalFields_of_same rest others h.2⟩
    cases hy : others.find? key with
    | none =>
      rw [hy] at h
      exact nomatch h.1
    | some y =>
      rw [hy] at h
      exact equal_of_same x y h.1

end

end JsonSchema

theorem Json.numbersOfFields_append (fields added : List (String × Json)) :
    numbersOfFields (fields ++ added) = numbersOfFields fields ++ numbersOfFields added := by
  induction fields with
  | nil => rfl
  | cons e rest ih =>
    rw [List.cons_append, numbersOfFields, numbersOfFields, ih, List.append_assoc]

theorem Json.Exact.of_extend {x : Json} (added : Entries Json) (h : (x.extend added).Exact) :
    x.Exact := by
  cases x with
  | object fields =>
    refine fun n hn => h n ?_
    change Number.integer n ∈ numbersOfFields (fields ++ added)
    rw [numbersOfFields_append]
    exact List.mem_append_left _ hn
  | _ => exact h

theorem validProperties_iff {fields : List (String × Validator)} {values : Entries Json} :
    validProperties (fieldSchemas fields) values = true ↔
      ∀ e ∈ fields, ∀ y, values.find? e.1 = some y → validKeywords e.2.schema y = true := by
  induction fields with
  | nil => simp [fieldSchemas, validProperties]
  | cons e rest ih =>
    obtain ⟨key, v⟩ := e
    rw [fieldSchemas, validProperties, Bool.and_eq_true, ih, List.forall_mem_cons]
    refine and_congr_left fun _ => ?_
    cases values.find? key with
    | none => simp
    | some y => simp [valid]

theorem mem_requiredKeys {fields : List (String × Validator)} {key : String} :
    key ∈ requiredKeys fields ↔ ∃ v, (key, v) ∈ fields ∧ v.acceptsMissing = false := by
  simp [requiredKeys, Entries.keys]

theorem validAny_branchSchemas_of_mem {branches : List Validator} {v : Validator} {x : Json}
    (hv : v ∈ branches) (h : validKeywords v.schema x = true) :
    validAny (branchSchemas branches) x = true := by
  induction branches with
  | nil => simp at hv
  | cons w rest ih =>
    rw [branchSchemas, validAny, Bool.or_eq_true, valid]
    rcases List.mem_cons.mp hv with rfl | hv
    · exact .inl h
    · exact .inr (ih hv)

theorem taggedSchemas_eq (branches : List (String × Validator)) :
    taggedSchemas branches = branchSchemas (branches.map Prod.snd) := by
  induction branches with
  | nil => rfl
  | cons e rest ih =>
    obtain ⟨tag, v⟩ := e
    rw [taggedSchemas, ih]
    rfl

theorem NumberRules.valid_output {rules : NumberRules} {x y : Json}
    (h : (Kind.number rules).convert? x = some y) (hy : y.Exact) (dropped : Entries Json) :
    validKeywords rules.schema (y.extend dropped) = true := by
  obtain ⟨b, n, -, rfl, -, hadmits⟩ := exists_of_convert h
  have hschema := @NumberRules.valid_schema { rules with coerce := false } rfl _ hy
  exact hschema.trans hadmits

theorem StringRules.valid_output {rules : StringRules} {x y : Json}
    (h : (Kind.string rules).convert? x = some y) (dropped : Entries Json) :
    validKeywords rules.schema (y.extend dropped) = true := by
  rw [Kind.convert?] at h
  split_ifs at h with hadmits
  obtain rfl := Option.some.inj h
  cases x with
  | string s =>
    have hschema := @StringRules.valid_schema { rules with accept := [] } rfl (.string s)
    refine hschema.trans ?_
    unfold StringRules.admits at *
    rw [Bool.and_eq_true] at hadmits
    exact Bool.and_eq_true_iff.mpr ⟨hadmits.1, rfl⟩
  | _ => exact nomatch hadmits

theorem valid_array_output {items : Validator} {minItems maxItems : Option Nat} (hitems : items.Sound)
    {x y : Json} (h : (Kind.array items minItems maxItems).convert? x = some y) (hy : y.Exact)
    (dropped : Entries Json) :
    validKeywords (Kind.array items minItems maxItems).schema (y.extend dropped) = true := by
  obtain ⟨elements, outputs, rfl, rfl, hmin, hmax, houtputs⟩ := Kind.convert?_array.mp h
  have hvalid : ∀ output ∈ outputs, validKeywords items.schema output = true := by
    intro output houtput
    obtain ⟨element, -, hconvert⟩ := exists_of_mem_outputs houtputs houtput
    have hsound := hitems [] hconvert (hy.of_mem houtput) (Json.dropped_nil element output)
    rwa [Json.extend_nil] at hsound
  change validKeywords (Kind.array items minItems maxItems).schema (.array outputs) = true
  rw [validKeywords_arraySchema, ← length_outputs houtputs, hmin, hmax]
  simpa [valid] using hvalid

theorem valid_object_output {fields : List (String × Validator)} (hd : Entries.Distinct fields)
    (hfields : ∀ e ∈ fields, e.2.Sound) {x y : Json} (h : (Kind.object fields).convert? x = some y)
    (hy : y.Exact) {dropped : Entries Json} (hdropped : Json.Dropped x y dropped) :
    validKeywords (Kind.object fields).schema (y.extend dropped) = true := by
  obtain ⟨values, outputs, rfl, rfl, houtputs⟩ := (Kind.convert?_object hd).mp h
  have hfind : ∀ e ∈ fields, Entries.find? (outputs ++ dropped) e.1 = Entries.find? outputs e.1 :=
    fun e he => find?_append_dropped hd houtputs hdropped he
  change validKeywords (Kind.object fields).schema (.object (outputs ++ dropped)) = true
  rw [validKeywords_objectSchema hd, Bool.and_eq_true]
  refine ⟨validProperties_iff.mpr fun e he y hfield => ?_, List.all_eq_true.mpr fun key hkey => ?_⟩
  · rw [hfind e he] at hfield
    have hconvert := find?_of_convertFields hd houtputs he
    rw [hfield] at hconvert
    rcases Validator.convertField?_cases hconvert with ⟨hnone, -⟩ | ⟨x, z, heq, hx⟩
    · exact nomatch hnone
    · cases heq
      have hsound := hfields e he [] hx (hy.of_find? hfield) (Json.dropped_nil x y)
      rwa [Json.extend_nil] at hsound
  · obtain ⟨v, hv, hmissing⟩ := mem_requiredKeys.mp hkey
    have hconvert := find?_of_convertFields hd houtputs hv
    unfold Entries.contains
    rw [hfind (key, v) hv]
    cases hfield : Entries.find? outputs key with
    | some y => rfl
    | none =>
      rw [hfield, Validator.convertField?_eq_none] at hconvert
      rw [hconvert.2] at hmissing
      exact nomatch hmissing

theorem valid_union_output {branches : List Validator} (hbranches : ∀ v ∈ branches, v.Sound)
    {x y : Json} (h : convertBranch branches x = some y) (hy : y.Exact)
    {dropped : Entries Json} (hdropped : Json.Dropped x y dropped) :
    validAny (branchSchemas branches) (y.extend dropped) = true := by
  obtain ⟨v, hv, hconvert⟩ := exists_of_convertBranch h
  exact validAny_branchSchemas_of_mem hv (hbranches v hv dropped hconvert hy hdropped)

/-- Extending an output of a branch by the discriminator extends what it has dropped. -/
theorem valid_tagged_output {field : String} {branches : List (String × Validator)} {closed : Bool}
    (hbranches : ∀ v ∈ branches.map Prod.snd, v.Sound) {x y : Json}
    (h : (Kind.tagged field branches closed).convert? x = some y) (hy : y.Exact)
    {dropped : Entries Json} (hdropped : Json.Dropped x y dropped) :
    validAny (branchSchemas (branches.map Prod.snd)) (y.extend dropped) = true := by
  rcases Kind.convert?_tagged_cases h with
    ⟨-, -, hbranch⟩ | ⟨tag, v, z, added, -, -, hv, hconvert, rfl, hadded⟩
  · exact valid_union_output hbranches hbranch hy hdropped
  · rw [Json.extend_extend]
    exact validAny_branchSchemas_of_mem hv
      (hbranches v hv _ hconvert (hy.of_extend added) (hadded.append hdropped))

theorem Kind.valid_output {kind : Kind Validator} (hparts : ∀ w ∈ kind.parts, w.Sound)
    (hd : ∀ fields, kind = .object fields → Entries.Distinct fields) {x y : Json}
    (h : kind.convert? x = some y) (hy : y.Exact) {dropped : Entries Json}
    (hdropped : Json.Dropped x y dropped) : validKeywords kind.schema (y.extend dropped) = true := by
  cases kind with
  | any | unknown =>
    rw [Kind.schema, validKeywords_nil]
  | never => exact nomatch h
  | null =>
    rw [Kind.convert?] at h
    split_ifs at h
    obtain rfl := Option.some.inj h
    rw [Kind.schema, validKeywords_typed]
    rfl
  | boolean =>
    rw [Kind.convert?] at h
    split_ifs at h with hbool
    obtain rfl := Option.some.inj h
    cases x with
    | bool b =>
      rw [Kind.schema, validKeywords_typed]
      rfl
    | _ => exact nomatch hbool
  | string rules =>
    rw [Kind.schema]
    exact StringRules.valid_output h dropped
  | number rules =>
    rw [Kind.schema]
    exact NumberRules.valid_output h hy dropped
  | literal expected =>
    rw [Kind.convert?] at h
    split_ifs at h with hsame
    obtain rfl := Option.some.inj h
    rw [hdropped.eq_nil, Json.extend_nil, Kind.schema, validKeywords_assertion _ _ (by decide)]
    exact equal_of_same x expected hsame
  | array items minItems maxItems =>
    exact valid_array_output (hparts items (List.mem_singleton_self _)) h hy dropped
  | object fields =>
    exact valid_object_output (hd fields rfl) (fun e he => hparts e.2 (List.mem_map_of_mem he)) h hy
      hdropped
  | union branches =>
    rw [Kind.schema, validKeywords_anyOf]
    rw [Kind.convert?] at h
    exact valid_union_output hparts h hy hdropped
  | tagged field branches closed =>
    rw [Kind.schema, validKeywords_anyOf, taggedSchemas_eq]
    exact valid_tagged_output hparts h hy hdropped

theorem Validator.sound {v : Validator} (hv : v.All fun w => Entries.Distinct w.fields) :
    v.Sound := by
  induction hv with
  | @intro v here _ ih =>
    intro x y dropped h hy hdropped
    rw [Validator.validKeywords_schema, Bool.or_eq_true]
    rw [Validator.convert?_eq] at h
    split_ifs at h with hnull
    · obtain rfl := Option.some.inj h
      rw [hdropped.eq_nil, Json.extend_nil]
      exact .inl hnull
    · refine .inr (Kind.valid_output ih (fun fields hkind => ?_) h hy hdropped)
      unfold Validator.fields at here
      rw [hkind] at here
      exact here

namespace Validator

/-- Whatever parsing puts out is valid against the exported schema. -/
theorem valid_of_parse {v : Validator} (hv : v.All fun w => Entries.Distinct w.fields) {x y : Json}
    (h : v.parse x = .ok y) (hy : y.Exact) : valid v.toJsonSchema y = true := by
  have hdialect : validKeywords [("$schema", .string dialect)] y = true :=
    validKeywords_assertion _ _ (by decide)
  have hvalid := sound hv [] (parse_eq_ok.mp h) hy (Json.dropped_nil x y)
  rw [Json.extend_nil] at hvalid
  rw [toJsonSchema, valid, validKeywords_append, hdialect, Bool.and_true]
  exact hvalid

theorem valid_of_parse_sample :
    (noteUnion.All fun w => Entries.Distinct w.fields) ∧
      noteUnion.parse (.object [("kind", .string "note"), ("count", .string "7")]) =
        .ok (.object [("count", .integer 7), ("lang", .string "en"), ("kind", .string "note")]) ∧
      valid noteUnion.toJsonSchema
        (.object [("count", .integer 7), ("lang", .string "en"), ("kind", .string "note")]) = true := by
  have hdistinct : noteUnion.All fun w => Entries.Distinct w.fields :=
    .intro (by decide) (List.forall_mem_singleton.mpr
      (all_noteFields (by decide) (by decide) (by decide)))
  have hexact : Json.Exact
      (.object [("count", .integer 7), ("lang", .string "en"), ("kind", .string "note")]) := by
    intro n hn
    obtain rfl : n = 7 := by simpa [Json.numbers, Json.numbersOfFields, Json.integer] using hn
    decide
  exact ⟨hdistinct, parse_noteUnion, valid_of_parse hdistinct parse_noteUnion hexact⟩

end Validator
end Lexicon
