import Lexicon.Json.Basic

/-!
# Validators

A validator is a kind, which says what shape a value must have, together with four settings that
apply to every kind: a missing value may be accepted, null may be accepted, a default may stand in
for a missing value, and a description may be attached. The operations that build validators
leave the settings alone that they do not name, and a constraint changes only the kinds that it
applies to.
-/

namespace Lexicon

structure StringRules where
  /-- The least length in characters. -/
  minLength : Option Nat := none
  maxLength : Option Nat := none
  oneOf : Option (List String) := none
  /-- MIME patterns such as `image/png`, `image/*` and `*/*`, one of which has to match. -/
  accept : List String := []

structure NumberRules where
  minimum : Option Binary64 := none
  maximum : Option Binary64 := none
  /-- Numbers with a fractional part are refused. -/
  whole : Bool := false
  /-- Text that is a number counts as the number. -/
  coerce : Bool := false
  oneOf : Option (List Binary64) := none

/-- The shape of a value; the validators inside it are `ν`. -/
inductive Kind (ν : Type) where
  /-- Every value, a missing one too. -/
  | any
  /-- Every value, a missing one too. -/
  | unknown
  | never
  | null
  | boolean
  | string (rules : StringRules)
  | number (rules : NumberRules)
  | literal (expected : Json)
  | array (items : ν) (minItems maxItems : Option Nat)
  /-- The declared fields in order; others are dropped. -/
  | object (fields : List (String × ν))
  /-- The first branch that fits. -/
  | union (branches : List ν)
  /-- The branch whose tag is the text of `field`; other values are matched as in a union, unless
  they carry another tag and the union is closed. -/
  | tagged (field : String) (branches : List (String × ν)) (closed : Bool)

structure Validator where
  kind : Kind Validator
  optional : Bool := false
  nullable : Bool := false
  default : Option Json := none
  description : Option String := none

namespace Validator

instance : Inhabited Validator := ⟨{ kind := .any }⟩

def any : Validator := { kind := .any }

def unknown : Validator := { kind := .unknown }

def never : Validator := { kind := .never }

def null : Validator := { kind := .null }

def boolean : Validator := { kind := .boolean }

def string : Validator := { kind := .string {} }

def number : Validator := { kind := .number {} }

def integer : Validator := { kind := .number { whole := true } }

def literal (expected : Json) : Validator := { kind := .literal expected }

def array (items : Validator) : Validator := { kind := .array items none none }

def union (branches : List Validator) : Validator := { kind := .union branches }

def taggedUnion (field : String) (branches : List (String × Validator)) (closed : Bool) :
    Validator :=
  { kind := .tagged field branches closed }

def describe (v : Validator) (description : String) : Validator :=
  { v with description := some description }

def withDefault (v : Validator) (default : Json) : Validator := { v with default := some default }

def asOptional (v : Validator) : Validator := { v with optional := true }

def asRequired (v : Validator) : Validator := { v with optional := false }

def asNullable (v : Validator) : Validator := { v with nullable := true }

def minLength (v : Validator) (n : Nat) : Validator :=
  match v.kind with
  | .string rules => { v with kind := .string { rules with minLength := some n } }
  | .array items _ maxItems => { v with kind := .array items (some n) maxItems }
  | _ => v

def maxLength (v : Validator) (n : Nat) : Validator :=
  match v.kind with
  | .string rules => { v with kind := .string { rules with maxLength := some n } }
  | .array items minItems _ => { v with kind := .array items minItems (some n) }
  | _ => v

def mapNumber (f : NumberRules → NumberRules) (v : Validator) : Validator :=
  match v.kind with
  | .number rules => { v with kind := .number (f rules) }
  | _ => v

def mapString (f : StringRules → StringRules) (v : Validator) : Validator :=
  match v.kind with
  | .string rules => { v with kind := .string (f rules) }
  | _ => v

def minimum (v : Validator) (x : Binary64) : Validator :=
  v.mapNumber fun rules => { rules with minimum := some x }

def maximum (v : Validator) (x : Binary64) : Validator :=
  v.mapNumber fun rules => { rules with maximum := some x }

def coerce (v : Validator) : Validator := v.mapNumber fun rules => { rules with coerce := true }

def oneOfNumbers (v : Validator) (xs : List Binary64) : Validator :=
  v.mapNumber fun rules => { rules with oneOf := some xs }

def oneOfStrings (v : Validator) (xs : List String) : Validator :=
  v.mapString fun rules => { rules with oneOf := some xs }

def acceptMime (v : Validator) (patterns : List String) : Validator :=
  v.mapString fun rules => { rules with accept := patterns }

def withField (v : Validator) (key : String) (field : Validator) : Validator :=
  match v.kind with
  | .object fields => { v with kind := .object (Entries.insert fields key field) }
  | _ => v

def object (fields : List (String × Validator)) : Validator :=
  { kind := .object (Entries.ofList fields) }

def isNever (v : Validator) : Bool :=
  match v.kind with
  | .never => true
  | _ => false

def acceptsMissing (v : Validator) : Bool :=
  v.optional || v.default.isSome ||
    match v.kind with
    | .any | .unknown => true
    | _ => false

def fields (v : Validator) : Entries Validator :=
  match v.kind with
  | .object fields => fields
  | _ => []

def field? (v : Validator) (key : String) : Option Validator := Entries.find? v.fields key

theorem object_eq_foldl (fields : List (String × Validator)) :
    object fields =
      fields.foldl (fun v e => v.withField e.1 e.2) { kind := .object [] } := by
  suffices h : ∀ start : Entries Validator,
      fields.foldl (fun (v : Validator) e => v.withField e.1 e.2) { kind := .object start } =
        ({ kind := .object (start.insertAll fields) } : Validator) by
    exact (h []).symm
  intro start
  induction fields generalizing start with
  | nil => rfl
  | cons e rest ih => exact ih (start.insert e.1 e.2)

/-! Equality of validators, with the equality of JSON values for the values in them. -/

def sameOption {α : Type} (same : α → α → Bool) : Option α → Option α → Bool
  | none, none => true
  | some x, some y => same x y
  | _, _ => false

def sameList {α : Type} (same : α → α → Bool) : List α → List α → Bool
  | [], [] => true
  | x :: xs, y :: ys => same x y && sameList same xs ys
  | _, _ => false

end Validator

def StringRules.same (a b : StringRules) : Bool :=
  a.minLength == b.minLength && a.maxLength == b.maxLength && a.oneOf == b.oneOf &&
    a.accept == b.accept

def NumberRules.same (a b : NumberRules) : Bool :=
  Validator.sameOption Binary64.same a.minimum b.minimum &&
    Validator.sameOption Binary64.same a.maximum b.maximum && a.whole == b.whole &&
    a.coerce == b.coerce &&
    Validator.sameOption (Validator.sameList Binary64.same) a.oneOf b.oneOf

mutual

def Validator.same : Validator → Validator → Bool
  | ⟨kind, optional, nullable, default, description⟩, other =>
    Kind.same kind other.kind && optional == other.optional && nullable == other.nullable &&
      Validator.sameOption Json.same default other.default && description == other.description

def Kind.same : Kind Validator → Kind Validator → Bool
  | .any, .any => true
  | .unknown, .unknown => true
  | .never, .never => true
  | .null, .null => true
  | .boolean, .boolean => true
  | .string a, .string b => a.same b
  | .number a, .number b => a.same b
  | .literal x, .literal y => x.same y
  | .array items minItems maxItems, .array items' minItems' maxItems' =>
    items.same items' && minItems == minItems' && maxItems == maxItems'
  | .object fields, .object fields' => Kind.sameFields fields fields'
  | .union branches, .union branches' => Kind.sameBranches branches branches'
  | .tagged field branches closed, .tagged field' branches' closed' =>
    field == field' && Kind.sameFields branches branches' && closed == closed'
  | _, _ => false

def Kind.sameBranches : List Validator → List Validator → Bool
  | [], [] => true
  | v :: vs, w :: ws => v.same w && Kind.sameBranches vs ws
  | _, _ => false

def Kind.sameFields : List (String × Validator) → List (String × Validator) → Bool
  | [], [] => true
  | (key, v) :: rest, (key', w) :: rest' => key == key' && v.same w && Kind.sameFields rest rest'
  | _, _ => false

end
end Lexicon
