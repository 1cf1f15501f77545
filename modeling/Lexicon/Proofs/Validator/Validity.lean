import Mathlib
import Lexicon.Validator.Schema

/-!
# Validity against a JSON Schema

The meaning of the keywords that schemas of validators are written in, as Draft 2020-12 has it: a
keyword restricts the instances of the types that it is about, and every keyword of a schema has to
hold. Other keywords are annotations. Numbers are compared by their values, so `1` and `1.0` are the
same and both are integers.
-/

namespace Lexicon

/-- The value of a number in units of `2 ^ (-1074)`. -/
def Number.value : Number → Int
  | .integer n => n * Binary64.one
  | .float x => x.value

namespace JsonSchema

mutual

def equal : Json → Json → Bool
  | .null, .null => true
  | .bool a, .bool b => a == b
  | .number m, .number n => m.value == n.value
  | .string s, .string t => s == t
  | .array xs, .array ys => equalElements xs ys
  | .object fields, .object others =>
    fields.length == others.length && equalFields fields others
  | _, _ => false

def equalElements : List Json → List Json → Bool
  | [], [] => true
  | x :: xs, y :: ys => equal x y && equalElements xs ys
  | _, _ => false

def equalFields : List (String × Json) → Entries Json → Bool
  | [], _ => true
  | (key, x) :: rest, others =>
    (match others.find? key with
      | some y => equal x y
      | none => false) && equalFields rest others

end

def hasType (name : String) (x : Json) : Bool :=
  match x with
  | .number n => name == "number" || name == "integer" && n.value % Binary64.one == 0
  | x => name == x.kind

def assertion (keyword : String) (argument x : Json) : Bool :=
  match keyword, argument, x with
  | "type", .string name, x => hasType name x
  | "enum", .array options, x => options.any (equal x)
  | "const", expected, x => equal x expected
  | "minimum", .number bound, .number n => bound.value ≤ n.value
  | "maximum", .number bound, .number n => n.value ≤ bound.value
  | "minLength", .number bound, .string s => bound.value ≤ (Number.integer s.length).value
  | "maxLength", .number bound, .string s => (Number.integer s.length).value ≤ bound.value
  | "minItems", .number bound, .array xs => bound.value ≤ (Number.integer xs.length).value
  | "maxItems", .number bound, .array xs => (Number.integer xs.length).value ≤ bound.value
  | "required", .array keys, .object fields =>
    keys.all fun key => (key.string?.map (Entries.contains fields)).getD false
  | _, _, _ => true

mutual

def valid : Json → Json → Bool
  | .bool b, _ => b
  | .object keywords, x => validKeywords keywords x
  | _, _ => false

def validKeywords : List (String × Json) → Json → Bool
  | [], _ => true
  | (keyword, argument) :: rest, x =>
    (match keyword, argument, x with
      | "properties", .object schemas, .object fields => validProperties schemas fields
      | "items", schema, .array elements => elements.all fun element => valid schema element
      | "anyOf", .array schemas, x => validAny schemas x
      | "not", schema, x => !valid schema x
      | _, _, _ => assertion keyword argument x) && validKeywords rest x

def validProperties : List (String × Json) → Entries Json → Bool
  | [], _ => true
  | (key, schema) :: rest, fields =>
    (match fields.find? key with
      | some x => valid schema x
      | none => true) && validProperties rest fields

def validAny : List Json → Json → Bool
  | [], _ => false
  | schema :: rest, x => valid schema x || validAny rest x

end

/-! A schema is a list of keywords, each of which has to hold by itself. -/

theorem validKeywords_nil (x : Json) : validKeywords [] x = true := by
  rw [validKeywords]

theorem validKeywords_cons (e : String × Json) (rest : Entries Json) (x : Json) :
    validKeywords (e :: rest) x = (validKeywords [e] x && validKeywords rest x) := by
  obtain ⟨keyword, argument⟩ := e
  have hunfold := fun rest => validKeywords.eq_def ((keyword, argument) :: rest) x
  simp only [hunfold, validKeywords_nil, Bool.and_true]

theorem validKeywords_append (a b : Entries Json) (x : Json) :
    validKeywords (a ++ b) x = (validKeywords a x && validKeywords b x) := by
  induction a with
  | nil => rw [List.nil_append, validKeywords_nil, Bool.true_and]
  | cons e rest ih =>
    rw [List.cons_append, validKeywords_cons, ih, validKeywords_cons e rest, Bool.and_assoc]

theorem validKeywords_assertion {keyword : String} (argument x : Json)
    (h : keyword ∉ ["properties", "items", "anyOf", "not"]) :
    validKeywords [(keyword, argument)] x = assertion keyword argument x := by
  simp only [List.mem_cons, List.not_mem_nil, or_false, not_or] at h
  rw [validKeywords, validKeywords_nil, Bool.and_true]
  · exact h.2.2.2
  · exact fun _ hk => absurd hk h.2.2.1
  · exact fun _ hk => absurd hk h.2.1
  · exact fun _ _ hk => absurd hk h.1

/-- A keyword that is written when it is there. -/
theorem validKeywords_field? {α : Type} {keyword : String} (argument : Option α) (f : α → Json)
    (x : Json) (h : keyword ∉ ["properties", "items", "anyOf", "not"]) :
    validKeywords (Json.field? keyword (argument.map f)) x =
      argument.all fun y => assertion keyword (f y) x := by
  cases argument with
  | none => exact validKeywords_nil x
  | some y => exact validKeywords_assertion (f y) x h

theorem validKeywords_typed (name : String) (x : Json) :
    validKeywords (typed name) x = hasType name x :=
  validKeywords_assertion (.string name) x (by decide)

theorem validKeywords_anyOf (schemas : List Json) (x : Json) :
    validKeywords [("anyOf", .array schemas)] x = validAny schemas x := by
  rw [validKeywords, validKeywords_nil, Bool.and_true]

theorem validKeywords_items (schema : Json) (elements : List Json) :
    validKeywords [("items", schema)] (.array elements) =
      elements.all fun element => valid schema element := by
  rw [validKeywords, validKeywords_nil, Bool.and_true]

theorem validKeywords_properties (schemas fields : Entries Json) :
    validKeywords [("properties", .object schemas)] (.object fields) =
      validProperties schemas fields := by
  rw [validKeywords, validKeywords_nil, Bool.and_true]

theorem validKeywords_required (keys : List String) (fields : Entries Json) :
    validKeywords [("required", Json.strings keys)] (.object fields) =
      keys.all fields.contains := by
  rw [validKeywords_assertion _ _ (by decide)]
  exact List.all_map

theorem validKeywords_orNull (keywords : Entries Json) (x : Json) :
    validKeywords (orNull keywords) x = (x.isNull || validKeywords keywords x) := by
  have hnull : hasType "null" x = x.isNull := by
    cases x <;> rfl
  rw [orNull, validKeywords_anyOf, validAny, validAny, validAny, valid, valid, validKeywords_typed,
    hnull, Bool.or_false, Bool.or_comm]

theorem validKeywords_description (description : Option String) (x : Json) :
    validKeywords (Json.field? "description" (description.map Json.string)) x = true := by
  rw [validKeywords_field? _ _ _ (by decide)]
  cases description <;> rfl

end JsonSchema
end Lexicon
