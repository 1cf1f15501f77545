import Lexicon.Proofs.Validator.OutputSchema

/-!
# The form of schemas

What Draft 2020-12 demands of a schema as a document: each keyword that validators are written in
has an argument of its form, at every nested position (`JsonSchema.wellFormed`). Schemas of
validators are well-formed but for one thing: a union without branches is written as an empty
`anyOf` (`Validator.wellFormed_toJsonSchema_iff`).
-/

namespace Lexicon

namespace JsonSchema

/-! ## Well-formed schemas -/

def typeNames : List String := ["null", "boolean", "object", "array", "number", "string", "integer"]

def isSize : Json → Bool
  | .number (.integer n) => 0 ≤ n
  | _ => false

def isNumber : Json → Bool
  | .number _ => true
  | _ => false

def argumentFits (keyword : String) (argument : Json) : Bool :=
  match keyword with
  | "type" => argument.string?.any typeNames.contains
  | "enum" => argument.array?.isSome
  | "required" => argument.array?.any fun keys =>
    keys.all (·.string?.isSome) && decide (keys.filterMap Json.string?).Nodup
  | "minLength" | "maxLength" | "minItems" | "maxItems" => isSize argument
  | "minimum" | "maximum" => isNumber argument
  | "description" | "$schema" => argument.string?.isSome
  | _ => true

mutual

/-- Whether a value is a schema. The keywords of a schema occur once. -/
def wellFormed : Json → Bool
  | .bool _ => true
  | .object keywords => decide (Entries.Distinct keywords) && wellFormedKeywords keywords
  | _ => false

def wellFormedKeywords : List (String × Json) → Bool
  | [] => true
  | (keyword, argument) :: rest =>
    (match keyword, argument with
      | "properties", .object schemas =>
        decide (Entries.Distinct schemas) && wellFormedFields schemas
      | "properties", _ => false
      | "items", schema => wellFormed schema
      | "not", schema => wellFormed schema
      | "anyOf", .array schemas => !schemas.isEmpty && wellFormedAll schemas
      | "anyOf", _ => false
      | keyword, argument => argumentFits keyword argument) && wellFormedKeywords rest

def wellFormedFields : List (String × Json) → Bool
  | [] => true
  | (_, schema) :: rest => wellFormed schema && wellFormedFields rest

def wellFormedAll : List Json → Bool
  | [] => true
  | schema :: rest => wellFormed schema && wellFormedAll rest

end

theorem wellFormedKeywords_nil : wellFormedKeywords [] = true := by
  rw [wellFormedKeywords]

theorem wellFormedKeywords_cons (e : String × Json) (rest : Entries Json) :
    wellFormedKeywords (e :: rest) = (wellFormedKeywords [e] && wellFormedKeywords rest) := by
  obtain ⟨keyword, argument⟩ := e
  have hunfold := fun rest => wellFormedKeywords.eq_def ((keyword, argument) :: rest)
  simp only [hunfold, wellFormedKeywords_nil, Bool.and_true]

theorem wellFormedKeywords_append (a b : Entries Json) :
    wellFormedKeywords (a ++ b) = (wellFormedKeywords a && wellFormedKeywords b) := by
  induction a with
  | nil => rw [List.nil_append, wellFormedKeywords_nil, Bool.true_and]
  | cons e rest ih =>
    rw [List.cons_append, wellFormedKeywords_cons, ih, wellFormedKeywords_cons e rest,
      Bool.and_assoc]

theorem wellFormedKeywords_argument {keyword : String} (argument : Json)
    (h : keyword ∉ ["properties", "items", "not", "anyOf"]) :
    wellFormedKeywords [(keyword, argument)] = argumentFits keyword argument := by
  simp only [List.mem_cons, List.not_mem_nil, or_false, not_or] at h
  rw [wellFormedKeywords, wellFormedKeywords_nil, Bool.and_true]
  · exact h.1
  · exact h.2.1
  · exact h.2.2.1
  · exact h.2.2.2
  · exact fun _ hk => absurd hk h.1
  · exact fun _ hk => absurd hk h.2.2.2

/-- A keyword that is written when it is there. -/
theorem wellFormedKeywords_field? {α : Type} {keyword : String} (argument : Option α) {f : α → Json}
    (h : keyword ∉ ["properties", "items", "not", "anyOf"])
    (hfits : ∀ y, argumentFits keyword (f y) = true) :
    wellFormedKeywords (Json.field? keyword (argument.map f)) = true := by
  cases argument with
  | none => exact wellFormedKeywords_nil
  | some y => exact (wellFormedKeywords_argument (f y) h).trans (hfits y)

theorem wellFormedKeywords_typed {name : String} (h : name ∈ typeNames) :
    wellFormedKeywords (typed name) = true := by
  rw [typed, wellFormedKeywords_argument _ (by decide)]
  simpa [argumentFits, Json.string?] using h

theorem wellFormedKeywords_anyOf (schemas : List Json) :
    wellFormedKeywords [("anyOf", .array schemas)] = (!schemas.isEmpty && wellFormedAll schemas) := by
  rw [wellFormedKeywords, wellFormedKeywords_nil, Bool.and_true]

theorem isSize_nat (n : Nat) : isSize (Json.nat n) = true :=
  decide_eq_true (Int.natCast_nonneg n)

theorem wellFormedKeywords_size {keyword : String} (n : Option Nat)
    (h : keyword ∈ ["minLength", "maxLength", "minItems", "maxItems"]) :
    wellFormedKeywords (Json.nat? keyword n) = true := by
  simp only [List.mem_cons, List.not_mem_nil, or_false] at h
  rcases h with rfl | rfl | rfl | rfl <;> exact wellFormedKeywords_field? n (by decide) isSize_nat

theorem wellFormedAll_branchSchemas (branches : List Validator) :
    wellFormedAll (branchSchemas branches) = true ↔
      ∀ w ∈ branches, wellFormed (.object w.schema) = true := by
  induction branches with
  | nil => simp [branchSchemas, wellFormedAll]
  | cons v rest ih => rw [branchSchemas, wellFormedAll, Bool.and_eq_true, ih, List.forall_mem_cons]

theorem wellFormedFields_fieldSchemas (fields : List (String × Validator)) :
    wellFormedFields (fieldSchemas fields) = true ↔
      ∀ w ∈ fields.map Prod.snd, wellFormed (.object w.schema) = true := by
  induction fields with
  | nil => simp [fieldSchemas, wellFormedFields]
  | cons e rest ih =>
    obtain ⟨key, v⟩ := e
    rw [fieldSchemas, wellFormedFields, Bool.and_eq_true, ih, List.map_cons, List.forall_mem_cons]

theorem wellFormedFields_iff (schemas : Entries Json) :
    wellFormedFields schemas = true ↔ ∀ e ∈ schemas, wellFormed e.2 = true := by
  induction schemas with
  | nil => simp [wellFormedFields]
  | cons e rest ih =>
    obtain ⟨key, schema⟩ := e
    rw [wellFormedFields, Bool.and_eq_true, ih, List.forall_mem_cons]

/-! ## Keywords occur once -/

def vocabulary : List String :=
  ["not", "const", "type", "minLength", "maxLength", "minimum", "maximum", "enum", "items",
    "minItems", "maxItems", "properties", "required", "anyOf", "description", "default", "$schema"]

theorem keys_field?_sublist (key : String) (x : Option Json) :
    (Entries.keys (Json.field? key x)).Sublist [key] := by
  cases x with
  | none => exact List.nil_sublist _
  | some x => exact List.Sublist.refl _

end JsonSchema

open JsonSchema

theorem Kind.keys_schema_sublist (kind : Kind Validator) :
    kind.schema.keys.Sublist (vocabulary.take 14) := by
  have hfield := keys_field?_sublist
  have hanyOf : ["anyOf"].Sublist (vocabulary.take 14) := by decide
  cases kind with
  | any | unknown => exact List.nil_sublist _
  | never | null | boolean => decide
  | literal expected =>
    have hkeys : ["const"].Sublist (vocabulary.take 14) := by decide
    exact hkeys
  | string rules =>
    simp only [Kind.schema, StringRules.schema, Entries.keys_append]
    exact ((((List.Sublist.refl ["type"]).append (hfield "minLength" _)).append
      (hfield "maxLength" _)).append (hfield "enum" _)).trans (by decide)
  | number rules =>
    simp only [Kind.schema, NumberRules.schema, Entries.keys_append]
    exact ((((List.Sublist.refl ["type"]).append (hfield "minimum" _)).append
      (hfield "maximum" _)).append (hfield "enum" _)).trans (by decide)
  | array items minItems maxItems =>
    simp only [Kind.schema, Entries.keys_append]
    exact (((List.Sublist.refl ["type", "items"]).append (hfield "minItems" _)).append
      (hfield "maxItems" _)).trans (by decide)
  | object fields =>
    have hkeys : ["type", "properties"].Sublist (vocabulary.take 14) := by decide
    have hrequired : ["type", "properties", "required"].Sublist (vocabulary.take 14) := by decide
    rw [Kind.schema]
    split
    · exact hkeys
    · exact hrequired
  | union branches | tagged _ branches _ => exact hanyOf

theorem Validator.keys_schema_sublist (v : Validator) :
    v.schema.keys.Sublist (vocabulary.take 16) := by
  obtain ⟨kind, optional, nullable, default, description⟩ := v
  have hkind : (Entries.keys (if nullable then orNull kind.schema else kind.schema)).Sublist
      (vocabulary.take 14) := by
    have hanyOf : ["anyOf"].Sublist (vocabulary.take 14) := by decide
    split
    · exact hanyOf
    · exact kind.keys_schema_sublist
  simp only [Validator.schema, Entries.keys_append]
  exact (hkind.append (keys_field?_sublist "description" _)).append (keys_field?_sublist "default" _)

theorem Validator.distinct_schema (v : Validator) : v.schema.Distinct :=
  v.keys_schema_sublist.nodup (by decide)

theorem Kind.distinct_schema (kind : Kind Validator) : kind.schema.Distinct :=
  kind.keys_schema_sublist.nodup (by decide)

/-! ## Unions need a branch -/

def Kind.Branched : Kind Validator → Prop
  | .union branches => branches ≠ []
  | .tagged _ branches _ => branches ≠ []
  | _ => True

theorem wellFormedKeywords_required {keys : List String} (h : keys.Nodup) :
    wellFormedKeywords [("required", Json.strings keys)] = true := by
  have hall : (keys.map Json.string).all (·.string?.isSome) = true := by simp [Json.string?]
  have hkeys : (keys.map Json.string).filterMap Json.string? = keys := by
    rw [List.filterMap_map]
    exact List.filterMap_some
  rw [wellFormedKeywords_argument _ (by decide)]
  change (_ && decide _) = true
  rw [hall, hkeys, decide_eq_true h, Bool.true_and]

/-- The keywords of an object are as well-formed as the schemas of its fields. -/
theorem wellFormedKeywords_object {fields : List (String × Validator)}
    (h : Entries.Distinct fields) :
    wellFormedKeywords (Kind.object fields).schema = wellFormedFields (fieldSchemas fields) := by
  have hschemas : (fieldSchemas fields).Distinct := by
    rw [Entries.Distinct, keys_fieldSchemas]
    exact h
  have hrequired : (requiredKeys fields).Nodup := (List.filter_sublist.map Prod.fst).nodup h
  have hproperties : wellFormedKeywords [("properties", Json.ofEntries (fieldSchemas fields))] =
      wellFormedFields (fieldSchemas fields) := by
    rw [Json.ofEntries, Entries.ofList_eq_self hschemas, wellFormedKeywords,
      wellFormedKeywords_nil, Bool.and_true, decide_eq_true hschemas, Bool.true_and]
  rw [Kind.schema, wellFormedKeywords_append, wellFormedKeywords_append, hproperties,
    wellFormedKeywords_typed (by decide), Bool.true_and]
  cases hkeys : requiredKeys fields with
  | nil => exact Bool.and_true _
  | cons key rest =>
    rw [hkeys] at hrequired
    rw [wellFormedKeywords_required hrequired, Bool.and_true]

/-- One level of a schema: the schemas directly inside are well-formed, and a union has one. -/
theorem Kind.wellFormedKeywords_schema {kind : Kind Validator}
    (hdistinct : ∀ fields, kind = .object fields → Entries.Distinct fields) :
    wellFormedKeywords kind.schema = true ↔
      kind.Branched ∧ ∀ w ∈ kind.parts, wellFormed (.object w.schema) = true := by
  have hleaf : kind.parts = [] → kind.Branched → wellFormedKeywords kind.schema = true →
      (wellFormedKeywords kind.schema = true ↔
        kind.Branched ∧ ∀ w ∈ kind.parts, wellFormed (.object w.schema) = true) := by
    intro hparts hbranched hschema
    rw [hparts]
    exact iff_of_true hschema ⟨hbranched, nofun⟩
  cases kind with
  | any | unknown => exact hleaf rfl trivial wellFormedKeywords_nil
  | never => exact hleaf rfl trivial rfl
  | null | boolean => exact hleaf rfl trivial (wellFormedKeywords_typed (by decide))
  | literal expected => exact hleaf rfl trivial (wellFormedKeywords_argument expected (by decide))
  | string rules =>
    refine hleaf rfl trivial ?_
    simp only [Kind.schema, StringRules.schema, wellFormedKeywords_append, Bool.and_eq_true]
    refine ⟨⟨⟨wellFormedKeywords_typed (by decide), wellFormedKeywords_size _ (by decide)⟩,
      wellFormedKeywords_size _ (by decide)⟩, ?_⟩
    exact wellFormedKeywords_field? _ (by decide) fun _ => rfl
  | number rules =>
    refine hleaf rfl trivial ?_
    have hbound : ∀ (x : Binary64), isNumber (Json.float x) = true := fun _ => rfl
    simp only [Kind.schema, NumberRules.schema, wellFormedKeywords_append, Bool.and_eq_true]
    refine ⟨⟨⟨wellFormedKeywords_typed ?_, ?_⟩, ?_⟩, ?_⟩
    · split <;> decide
    · exact wellFormedKeywords_field? _ (by decide) hbound
    · exact wellFormedKeywords_field? _ (by decide) hbound
    · exact wellFormedKeywords_field? _ (by decide) fun _ => rfl
  | array items minItems maxItems =>
    simp only [Kind.schema, wellFormedKeywords_append, Bool.and_eq_true, Kind.parts,
      List.forall_mem_singleton, Kind.Branched, true_and]
    rw [wellFormedKeywords, wellFormedKeywords_nil, Bool.and_true]
    constructor
    · exact fun h => h.1.1.2
    · exact fun h =>
        ⟨⟨⟨wellFormedKeywords_typed (by decide), h⟩, wellFormedKeywords_size _ (by decide)⟩,
        wellFormedKeywords_size _ (by decide)⟩
  | object fields =>
    rw [wellFormedKeywords_object (hdistinct fields rfl), wellFormedFields_fieldSchemas]
    exact ⟨fun h => ⟨trivial, h⟩, fun h => h.2⟩
  | union branches =>
    rw [Kind.schema, wellFormedKeywords_anyOf, Bool.and_eq_true, wellFormedAll_branchSchemas]
    refine and_congr ?_ Iff.rfl
    cases branches <;> simp [branchSchemas, Kind.Branched]
  | tagged field branches closed =>
    rw [Kind.schema, wellFormedKeywords_anyOf, taggedSchemas_eq, Bool.and_eq_true,
      wellFormedAll_branchSchemas]
    refine and_congr ?_ Iff.rfl
    cases branches <;> simp [branchSchemas, Kind.Branched]

namespace Validator

variable {v : Validator}

theorem all_iff {P : Validator → Prop} : v.All P ↔ P v ∧ ∀ w ∈ v.kind.parts, w.All P :=
  ⟨fun h => ⟨h.here, fun _ hw => h.inside hw⟩, fun h => .intro h.1 h.2⟩

/-- Letting null through, the description and the default add well-formed keywords. -/
theorem wellFormedKeywords_schema (v : Validator) :
    wellFormedKeywords v.schema = wellFormedKeywords v.kind.schema := by
  obtain ⟨kind, optional, nullable, default, description⟩ := v
  have hdescription : wellFormedKeywords (Json.field? "description" (description.map Json.string)) =
      true := wellFormedKeywords_field? description (by decide) fun _ => rfl
  have hdefault : wellFormedKeywords (Json.field? "default" default) = true := by
    cases default with
    | none => exact wellFormedKeywords_nil
    | some x => exact wellFormedKeywords_argument x (by decide)
  have hnull : wellFormedKeywords (orNull kind.schema) = wellFormedKeywords kind.schema := by
    have htyped : wellFormed (.object (typed "null")) = true := by decide
    rw [orNull, wellFormedKeywords_anyOf, wellFormedAll, wellFormedAll, wellFormedAll, htyped,
      wellFormed, decide_eq_true kind.distinct_schema, Bool.and_true, Bool.and_true]
    rfl
  rw [Validator.schema, wellFormedKeywords_append, wellFormedKeywords_append, hdescription, hdefault,
    Bool.and_true, Bool.and_true]
  split
  · exact hnull
  · rfl

theorem wellFormed_schema (v : Validator) :
    wellFormed (.object v.schema) = wellFormedKeywords v.kind.schema := by
  rw [wellFormed, decide_eq_true v.distinct_schema, Bool.true_and, wellFormedKeywords_schema]

theorem wellFormed_schema_iff (hv : v.All fun w => Entries.Distinct w.fields) :
    wellFormed (.object v.schema) = true ↔ v.All (·.kind.Branched) := by
  induction hv with
  | @intro v here _ ih =>
    rw [all_iff, wellFormed_schema, Kind.wellFormedKeywords_schema]
    · exact and_congr Iff.rfl (forall₂_congr ih)
    · intro fields hkind
      unfold Validator.fields at here
      rw [hkind] at here
      exact here

/-- The schema of a validator is well-formed if and only if each union inside it has a branch. -/
theorem wellFormed_toJsonSchema_iff (hv : v.All fun w => Entries.Distinct w.fields) :
    wellFormed v.toJsonSchema = true ↔ v.All (·.kind.Branched) := by
  have hdistinct : Entries.Distinct (v.schema ++ [("$schema", .string dialect)]) := by
    have hkeys := v.keys_schema_sublist.append (List.Sublist.refl ["$schema"])
    rw [Entries.Distinct, Entries.keys_append]
    exact hkeys.nodup (by decide)
  have hdialect : wellFormedKeywords [("$schema", .string dialect)] = true :=
    wellFormedKeywords_argument _ (by decide)
  rw [toJsonSchema, wellFormed, decide_eq_true hdistinct, wellFormedKeywords_append, hdialect,
    Bool.true_and, Bool.and_true, wellFormedKeywords_schema, ← wellFormed_schema,
    wellFormed_schema_iff hv]

end Validator
end Lexicon
