import Lexicon.Proofs.Binary64
import Lexicon.Proofs.Entries
import Lexicon.Proofs.Validator.Acceptance
import Lexicon.Proofs.Validator.Validity

/-!
# Schemas agree with validators

A validator without defaults, coercions, MIME patterns and tags accepts the values that are valid
against its schema (`accepts_eq_valid`). A missing field is decided by the wrapper of its validator
on one side and by the required keys of its object on the other, and null by a flag or by a second
alternative. Integers are kept exact up to 53 bits; beyond that parsing rounds them.
-/

namespace Lexicon

mutual

def Json.numbers : Json → List Number
  | .number n => [n]
  | .array elements => numbersOfElements elements
  | .object fields => numbersOfFields fields
  | _ => []

def Json.numbersOfElements : List Json → List Number
  | [] => []
  | x :: rest => x.numbers ++ numbersOfElements rest

def Json.numbersOfFields : List (String × Json) → List Number
  | [] => []
  | (_, x) :: rest => x.numbers ++ numbersOfFields rest

end

def Json.Exact (x : Json) : Prop := ∀ n, .integer n ∈ x.numbers → n.natAbs ≤ 2 ^ 53

/-- The validators that are built without defaults, coercions, MIME patterns and tags. -/
inductive Exportable : Validator → Prop
  | any : Exportable .any
  | unknown : Exportable .unknown
  | never : Exportable .never
  | null : Exportable .null
  | boolean : Exportable .boolean
  | string : Exportable .string
  | number : Exportable .number
  | integer : Exportable .integer
  | literal {x : Json} (hx : x.numbers = []) : Exportable (.literal x)
  | array {items : Validator} (hitems : Exportable items) : Exportable (.array items)
  | object {fields : List (String × Validator)} (hfields : ∀ e ∈ fields, Exportable e.2) :
    Exportable (.object fields)
  | union {branches : List Validator} (hne : branches ≠ [])
    (hbranches : ∀ v ∈ branches, Exportable v) : Exportable (.union branches)
  | withField {v field : Validator} (hv : Exportable v) (hfield : Exportable field) (key : String) :
    Exportable (v.withField key field)
  | minLength {v : Validator} (hv : Exportable v) (n : Nat) : Exportable (v.minLength n)
  | maxLength {v : Validator} (hv : Exportable v) (n : Nat) : Exportable (v.maxLength n)
  | minimum {v : Validator} (hv : Exportable v) (x : Binary64) : Exportable (v.minimum x)
  | maximum {v : Validator} (hv : Exportable v) (x : Binary64) : Exportable (v.maximum x)
  | oneOfNumbers {v : Validator} (hv : Exportable v) (xs : List Binary64) :
    Exportable (v.oneOfNumbers xs)
  | oneOfStrings {v : Validator} (hv : Exportable v) (xs : List String) :
    Exportable (v.oneOfStrings xs)
  | asOptional {v : Validator} (hv : Exportable v) : Exportable v.asOptional
  | asRequired {v : Validator} (hv : Exportable v) : Exportable v.asRequired
  | asNullable {v : Validator} (hv : Exportable v) : Exportable v.asNullable
  | describe {v : Validator} (hv : Exportable v) (s : String) : Exportable (v.describe s)

mutual

def Validator.Plain : Validator → Prop
  | ⟨kind, _, _, default, _⟩ => default = none ∧ kind.Plain

def Kind.Plain : Kind Validator → Prop
  | .any | .unknown | .never | .null | .boolean => True
  | .string rules => rules.accept = []
  | .number rules => rules.coerce = false
  | .literal expected => expected.numbers = []
  | .array items _ _ => items.Plain
  | .object fields => (Entries.keys fields).Nodup ∧ PlainFields fields
  | .union branches => PlainBranches branches
  | .tagged _ _ _ => False

def PlainFields : List (String × Validator) → Prop
  | [] => True
  | (_, v) :: rest => v.Plain ∧ PlainFields rest

def PlainBranches : List Validator → Prop
  | [] => True
  | v :: rest => v.Plain ∧ PlainBranches rest

end

theorem plainFields_iff {fields : List (String × Validator)} :
    PlainFields fields ↔ ∀ e ∈ fields, e.2.Plain := by
  induction fields with
  | nil => simp [PlainFields]
  | cons e rest ih => simp [PlainFields, ih]

theorem plainBranches_iff {branches : List Validator} :
    PlainBranches branches ↔ ∀ v ∈ branches, v.Plain := by
  induction branches with
  | nil => simp [PlainBranches]
  | cons v rest ih => simp [PlainBranches, ih]

namespace Exportable

variable {v field : Validator}

theorem plain_mapNumber {f : NumberRules → NumberRules} (hv : v.Plain)
    (hf : ∀ rules : NumberRules, (f rules).coerce = rules.coerce) : (v.mapNumber f).Plain := by
  obtain ⟨kind, optional, nullable, default, description⟩ := v
  obtain ⟨hdefault, hkind⟩ := hv
  cases kind with
  | number rules => exact ⟨hdefault, (hf rules).trans hkind⟩
  | _ => exact ⟨hdefault, hkind⟩

theorem plain_mapString {f : StringRules → StringRules} (hv : v.Plain)
    (hf : ∀ rules : StringRules, (f rules).accept = rules.accept) : (v.mapString f).Plain := by
  obtain ⟨kind, optional, nullable, default, description⟩ := v
  obtain ⟨hdefault, hkind⟩ := hv
  cases kind with
  | string rules => exact ⟨hdefault, (hf rules).trans hkind⟩
  | _ => exact ⟨hdefault, hkind⟩

theorem plain_minLength (hv : v.Plain) (n : Nat) : (v.minLength n).Plain := by
  obtain ⟨kind, optional, nullable, default, description⟩ := v
  cases kind with
  | _ => exact hv

theorem plain_maxLength (hv : v.Plain) (n : Nat) : (v.maxLength n).Plain := by
  obtain ⟨kind, optional, nullable, default, description⟩ := v
  cases kind with
  | _ => exact hv

theorem plain_withField (hv : v.Plain) (hfield : field.Plain) (key : String) :
    (v.withField key field).Plain := by
  obtain ⟨kind, optional, nullable, default, description⟩ := v
  obtain ⟨hdefault, hkind⟩ := hv
  cases kind with
  | object fields =>
    obtain ⟨hdistinct, hfields⟩ := hkind
    refine ⟨hdefault, Entries.distinct_insert hdistinct key field, plainFields_iff.mpr ?_⟩
    intro e he
    rcases Entries.mem_insert he with rfl | he
    · exact hfield
    · exact plainFields_iff.mp hfields e he
  | _ => exact ⟨hdefault, hkind⟩

theorem plain_wrap {optional nullable : Bool} {description : Option String} (hv : v.Plain) :
    Validator.Plain ⟨v.kind, optional, nullable, v.default, description⟩ := by
  obtain ⟨kind, _, _, default, _⟩ := v
  exact hv

theorem plain (hv : Exportable v) : v.Plain := by
  induction hv with
  | literal hx => exact ⟨rfl, hx⟩
  | string | number | integer => exact ⟨rfl, rfl⟩
  | any | unknown | never | null | boolean => exact ⟨rfl, trivial⟩
  | array _ hitems => exact ⟨rfl, hitems⟩
  | object _ hfields =>
    refine ⟨rfl, Entries.distinct_ofList _, plainFields_iff.mpr fun e he => ?_⟩
    exact hfields e (Entries.mem_of_mem_ofList he)
  | union _ _ hbranches => exact ⟨rfl, plainBranches_iff.mpr hbranches⟩
  | withField _ _ key hv hfield => exact plain_withField hv hfield key
  | minLength _ n hv => exact plain_minLength hv n
  | maxLength _ n hv => exact plain_maxLength hv n
  | minimum _ x hv => exact plain_mapNumber hv fun _ => rfl
  | maximum _ x hv => exact plain_mapNumber hv fun _ => rfl
  | oneOfNumbers _ xs hv => exact plain_mapNumber hv fun _ => rfl
  | oneOfStrings _ xs hv => exact plain_mapString hv fun _ => rfl
  | asOptional _ hv | asRequired _ hv | asNullable _ hv | describe _ _ hv => exact plain_wrap hv

end Exportable
open JsonSchema

theorem Number.value_toBinary64 {n : Number} (h : Json.Exact (.number n)) :
    n.toBinary64.value = n.value := by
  cases n with
  | integer k => exact Binary64.value_ofInt (h k (by simp [Json.numbers]))
  | float x => rfl

theorem hasType_of_kind_ne {name : String} {x : Json} (hx : x.kind ≠ "number")
    (hname : name ≠ x.kind) : hasType name x = false := by
  cases x with
  | number n => exact absurd rfl hx
  | _ => exact beq_false_of_ne hname

theorem NumberRules.valid_schema {rules : NumberRules} (hcoerce : rules.coerce = false) {x : Json}
    (hx : x.Exact) : validKeywords rules.schema x = rules.admits x := by
  unfold NumberRules.schema NumberRules.admits
  rw [validKeywords_append, validKeywords_append, validKeywords_append, validKeywords_typed,
    validKeywords_field? _ _ _ (by decide), validKeywords_field? _ _ _ (by decide),
    validKeywords_field? _ _ _ (by decide)]
  by_cases hkind : x.kind = "number"
  · cases x with
    | number n =>
      have hvalue := Number.value_toBinary64 hx
      have htype : hasType (if rules.whole then "integer" else "number") (.number n) =
          (!rules.whole || n.toBinary64.isWhole) := by
        rw [Binary64.isWhole_eq, hvalue]
        cases rules.whole <;> rfl
      have hminimum : (fun m => assertion "minimum" (.float m) (.number n)) =
          fun m => decide (m ≤ n.toBinary64) := by
        funext m
        refine decide_eq_decide.mpr ?_
        rw [m.le_iff, hvalue]
        exact Iff.rfl
      have hmaximum : (fun m => assertion "maximum" (.float m) (.number n)) =
          fun m => decide (n.toBinary64 ≤ m) := by
        funext m
        refine decide_eq_decide.mpr ?_
        rw [Binary64.le_iff, hvalue]
        exact Iff.rfl
      have henum : (fun xs : List Binary64 => assertion "enum" (.array (xs.map .float)) (.number n)) =
          fun xs => xs.any n.toBinary64.same := by
        funext xs
        unfold Binary64.same
        rw [hvalue]
        exact List.any_map
      rw [htype, hminimum, hmaximum, henum]
      rfl
    | _ => simp [Json.kind] at hkind
  · have hvalue : rules.valueOf? x = none := by
      cases x with
      | number n => exact absurd rfl hkind
      | string s =>
        unfold NumberRules.valueOf?
        rw [hcoerce]
        rfl
      | _ => rfl
    have htype : hasType (if rules.whole then "integer" else "number") x = false := by
      refine hasType_of_kind_ne hkind ?_
      cases rules.whole with
      | false => exact Ne.symm hkind
      | true => cases x <;> simp [Json.kind]
    rw [hvalue, htype]
    rfl

theorem nat_le_value (m n : Nat) :
    (Number.integer m).value ≤ (Number.integer n).value ↔ m ≤ n := by
  have hpos : (0 : Int) < Binary64.one := by
    obtain ⟨k, hk⟩ := Binary64.one_eq
    have := Nat.two_pow_pos k
    omega
  exact (Int.mul_le_mul_right hpos).trans Int.ofNat_le

theorem StringRules.valid_schema {rules : StringRules} (haccept : rules.accept = []) (x : Json) :
    validKeywords rules.schema x = rules.admits x := by
  unfold StringRules.schema
  rw [validKeywords_append, validKeywords_append, validKeywords_append, validKeywords_typed,
    Json.nat?, Json.nat?, validKeywords_field? _ _ _ (by decide),
    validKeywords_field? _ _ _ (by decide), validKeywords_field? _ _ _ (by decide)]
  cases x with
  | string s =>
    have hmin : (fun n => assertion "minLength" (Json.nat n) (.string s)) =
        fun n => decide (n ≤ s.length) := by
      funext n
      simp only [assertion, Json.nat, Json.integer, nat_le_value]
    have hmax : (fun n => assertion "maxLength" (Json.nat n) (.string s)) =
        fun n => decide (s.length ≤ n) := by
      funext n
      simp only [assertion, Json.nat, Json.integer, nat_le_value]
    have henum : (fun xs => assertion "enum" (Json.strings xs) (.string s)) =
        fun xs => xs.contains s := by
      funext xs
      change (xs.map Json.string).any (equal (.string s)) = xs.contains s
      rw [List.any_map, List.contains_eq_any_beq]
      rfl
    unfold StringRules.admits
    rw [hmin, hmax, henum, haccept]
    simp [hasType, Json.kind]
  | number n => rfl
  | _ => rfl

namespace Json

theorem numbers_of_mem_elements {elements : List Json} {x : Json} (hx : x ∈ elements) :
    x.numbers ⊆ numbersOfElements elements := by
  induction elements with
  | nil => simp at hx
  | cons y rest ih =>
    intro n hn
    rw [numbersOfElements, List.mem_append]
    rcases List.mem_cons.mp hx with rfl | hx
    · exact .inl hn
    · exact .inr (ih hx hn)

theorem numbers_of_find? {fields : Entries Json} {key : String} {x : Json}
    (hx : fields.find? key = some x) : x.numbers ⊆ numbersOfFields fields := by
  have hmem := Entries.mem_of_find? hx
  induction fields with
  | nil => simp at hmem
  | cons e rest ih =>
    intro n hn
    rw [numbersOfFields, List.mem_append]
    rw [Entries.find?_cons] at hx
    split at hx
    · obtain rfl := Option.some.inj hx
      exact .inl hn
    · exact .inr (ih hx (Entries.mem_of_find? hx) hn)

mutual

/-- Without numbers the two equalities are one. -/
theorem equal_eq_same : ∀ x y : Json, y.numbers = [] → equal x y = x.same y
  | .null, y, _ => by cases y <;> rfl
  | .bool a, y, _ => by cases y <;> rfl
  | .string s, y, _ => by cases y <;> rfl
  | .number m, y, hy => by
    cases y with
    | number n => simp [numbers] at hy
    | _ => rfl
  | .array xs, y, hy => by
    cases y with
    | array ys =>
      rw [equal, same]
      exact equalElements_eq_sameElements xs ys hy
    | _ => rfl
  | .object fields, y, hy => by
    cases y with
    | object others =>
      rw [equal, same, equalFields_eq_sameFields fields others hy]
    | _ => rfl

theorem equalElements_eq_sameElements :
    ∀ xs ys : List Json, numbersOfElements ys = [] → equalElements xs ys = sameElements xs ys
  | [], ys, _ => by cases ys <;> rfl
  | x :: xs, ys, hys => by
    cases ys with
    | nil => rfl
    | cons y ys =>
      obtain ⟨hy, hys⟩ := List.append_eq_nil_iff.mp hys
      rw [equalElements, sameElements, equal_eq_same x y hy, equalElements_eq_sameElements xs ys hys]

theorem equalFields_eq_sameFields :
    ∀ (fields : List (String × Json)) (others : Entries Json), numbersOfFields others = [] →
      equalFields fields others = sameFields fields others
  | [], others, _ => rfl
  | (key, x) :: rest, others, hothers => by
    rw [equalFields, sameFields, equalFields_eq_sameFields rest others hothers]
    cases hy : others.find? key with
    | none => rfl
    | some y =>
      have hsub := numbers_of_find? hy
      rw [hothers] at hsub
      simp only [equal_eq_same x y (List.subset_nil.mp hsub)]

end

theorem Exact.of_mem {elements : List Json} (h : Exact (.array elements)) {x : Json}
    (hx : x ∈ elements) : x.Exact :=
  fun n hn => h n (numbers_of_mem_elements hx hn)

theorem Exact.of_find? {fields : Entries Json} (h : Exact (.object fields)) {key : String} {x : Json}
    (hx : fields.find? key = some x) : x.Exact :=
  fun n hn => h n (numbers_of_find? hx hn)

end Json

/-- Without a default, a missing value is accepted or not by the wrapper and the kind. -/
theorem Validator.Plain.admits_none {v : Validator} (hv : v.Plain) :
    v.admits none = v.acceptsMissing := by
  obtain ⟨kind, optional, nullable, default, description⟩ := v
  obtain ⟨rfl, -⟩ := hv
  unfold admits acceptsMissing
  cases kind <;> simp

theorem keys_fieldSchemas (fields : List (String × Validator)) :
    (fieldSchemas fields).keys = Entries.keys fields := by
  induction fields with
  | nil => rfl
  | cons e rest ih =>
    obtain ⟨key, v⟩ := e
    rw [fieldSchemas, Entries.keys_cons, ih]
    rfl

theorem validKeywords_arraySchema (items : Validator) (minItems maxItems : Option Nat)
    (elements : List Json) :
    validKeywords (Kind.array items minItems maxItems).schema (.array elements) =
      (minItems.all (· ≤ elements.length) && maxItems.all (elements.length ≤ ·) &&
        elements.all fun element => valid (.object items.schema) element) := by
  have hmin : (fun n => assertion "minItems" (Json.nat n) (.array elements)) =
      fun n => decide (n ≤ elements.length) := by
    funext n
    simp only [assertion, Json.nat, Json.integer, nat_le_value]
  have hmax : (fun n => assertion "maxItems" (Json.nat n) (.array elements)) =
      fun n => decide (elements.length ≤ n) := by
    funext n
    simp only [assertion, Json.nat, Json.integer, nat_le_value]
  rw [Kind.schema, validKeywords_append, validKeywords_append, validKeywords_append,
    validKeywords_typed, Json.nat?, Json.nat?, validKeywords_field? _ _ _ (by decide),
    validKeywords_field? _ _ _ (by decide), hmin, hmax, validKeywords_items]
  change (true && _ && _ && _) = _
  rw [Bool.true_and, Bool.and_assoc, Bool.and_comm]

theorem validKeywords_objectSchema {fields : List (String × Validator)}
    (hd : Entries.Distinct fields) (values : Entries Json) :
    validKeywords (Kind.object fields).schema (.object values) =
      (validProperties (fieldSchemas fields) values &&
        (requiredKeys fields).all values.contains) := by
  have hproperties : Json.ofEntries (fieldSchemas fields) = .object (fieldSchemas fields) := by
    unfold Json.ofEntries
    rw [Entries.ofList_eq_self]
    unfold Entries.Distinct
    rw [keys_fieldSchemas]
    exact hd
  rw [Kind.schema, validKeywords_append, validKeywords_append, validKeywords_typed, hproperties,
    validKeywords_properties]
  change (true && _ && _) = _
  rw [Bool.true_and]
  refine congrArg (validProperties (fieldSchemas fields) values && ·) ?_
  cases requiredKeys fields with
  | nil => exact validKeywords_nil _
  | cons key rest => exact validKeywords_required (key :: rest) values

mutual

theorem Validator.valid_schema : ∀ (v : Validator) (x : Json), v.Plain → x.Exact →
    validKeywords v.schema x = v.admits (some x)
  | ⟨kind, optional, nullable, default, description⟩, x, hv, hx => by
    obtain ⟨rfl, hkind⟩ := hv
    have hschema := Kind.valid_schema kind x hkind hx
    rw [Validator.schema, validKeywords_append, validKeywords_append, validKeywords_description,
      Json.field?, validKeywords_nil, Bool.and_true, Bool.and_true]
    change _ = (nullable && x.isNull || kind.admits x)
    rw [← hschema]
    cases nullable with
    | false => rfl
    | true => exact validKeywords_orNull kind.schema x

theorem Kind.valid_schema : ∀ (kind : Kind Validator) (x : Json), kind.Plain → x.Exact →
    validKeywords kind.schema x = kind.admits x
  | .any, x, _, _ | .unknown, x, _, _ => by
    rw [Kind.schema, Kind.admits, validKeywords_nil]
  | .never, x, _, _ => by
    rw [Kind.schema, Kind.admits, validKeywords, valid, validKeywords_nil]
    rfl
  | .null, x, _, _ => by
    rw [Kind.schema, Kind.admits, validKeywords_typed]
    cases x <;> rfl
  | .boolean, x, _, _ => by
    rw [Kind.schema, Kind.admits, validKeywords_typed]
    cases x <;> rfl
  | .string rules, x, hplain, _ => by
    rw [Kind.schema, Kind.admits]
    exact rules.valid_schema hplain x
  | .number rules, x, hplain, hx => by
    rw [Kind.schema, Kind.admits]
    exact rules.valid_schema hplain hx
  | .literal expected, x, hplain, _ => by
    rw [Kind.schema, Kind.admits, validKeywords_assertion _ _ (by decide)]
    exact x.equal_eq_same expected hplain
  | .array items minItems maxItems, x, hplain, hx => by
    cases x with
    | array elements =>
      have hitems : (elements.all fun element => valid (.object items.schema) element) =
          elements.all fun element => items.admits (some element) := by
        rw [Bool.eq_iff_iff, List.all_eq_true, List.all_eq_true]
        refine forall_congr' fun element => imp_congr_right fun helement => ?_
        rw [valid, items.valid_schema element hplain (hx.of_mem helement)]
      rw [validKeywords_arraySchema, hitems, Kind.admits]
    | _ =>
      rw [Kind.schema, validKeywords_append, validKeywords_append, validKeywords_append,
        validKeywords_typed]
      rfl
  | .object fields, x, hplain, hx => by
    obtain ⟨hdistinct, hfields⟩ := hplain
    cases x with
    | object values =>
      rw [validKeywords_objectSchema hdistinct, Kind.admits]
      exact validProperties_fieldSchemas fields values hfields hx
    | _ =>
      rw [Kind.schema, validKeywords_append, validKeywords_append, validKeywords_typed]
      rfl
  | .union branches, x, hplain, hx => by
    rw [Kind.schema, Kind.admits, validKeywords_anyOf]
    exact validAny_branchSchemas branches x hplain hx
  | .tagged _ _ _, _, hplain, _ => hplain.elim

/-- The properties and the required keys of an object decide together about each field. -/
theorem validProperties_fieldSchemas : ∀ (fields : List (String × Validator)) (values : Entries Json),
    PlainFields fields → Json.Exact (.object values) →
      (validProperties (fieldSchemas fields) values &&
        (requiredKeys fields).all values.contains) = admitsFields fields values
  | [], values, _, _ => by
    rw [fieldSchemas, validProperties, admitsFields]
    rfl
  | (key, v) :: rest, values, hplain, hx => by
    obtain ⟨hv, hrest⟩ := hplain
    have ih := validProperties_fieldSchemas rest values hrest hx
    have hrequired : requiredKeys ((key, v) :: rest) =
        if v.acceptsMissing then requiredKeys rest else key :: requiredKeys rest := by
      unfold requiredKeys
      cases hmissing : v.acceptsMissing <;> simp [hmissing]
    rw [fieldSchemas, validProperties, admitsFields, ← ih, hrequired]
    cases hfind : values.find? key with
    | none =>
      have hcontains : values.contains key = false := by
        unfold Entries.contains
        rw [hfind]
        rfl
      rw [Validator.Plain.admits_none hv]
      cases v.acceptsMissing with
      | true => rfl
      | false => simp [hcontains]
    | some x =>
      have hcontains : values.contains key = true := by
        unfold Entries.contains
        rw [hfind]
        rfl
      rw [← v.valid_schema x hv (hx.of_find? hfind)]
      cases v.acceptsMissing <;> simp [hcontains, valid, Bool.and_assoc]

theorem validAny_branchSchemas : ∀ (branches : List Validator) (x : Json), PlainBranches branches →
    x.Exact → validAny (branchSchemas branches) x = admitsBranch branches x
  | [], x, _, _ => by
    rw [branchSchemas, validAny, admitsBranch]
  | v :: rest, x, hplain, hx => by
    obtain ⟨hv, hrest⟩ := hplain
    rw [branchSchemas, validAny, admitsBranch, valid, v.valid_schema x hv hx,
      validAny_branchSchemas rest x hrest hx]

end

namespace Validator

/-- A value is accepted if and only if it is valid against the exported schema. -/
theorem accepts_eq_valid {v : Validator} (hv : Exportable v) {x : Json} (hx : x.Exact) :
    v.accepts x = valid v.toJsonSchema x := by
  have hdialect : validKeywords [("$schema", .string dialect)] x = true :=
    validKeywords_assertion _ _ (by decide)
  rw [accepts_eq_admits, toJsonSchema, valid, validKeywords_append, hdialect, Bool.and_true]
  exact (v.valid_schema x hv.plain hx).symm

def sample : Validator :=
  object [("name", (string.minLength 1).asNullable),
    ("marks", (array (union [integer, literal (.string "none")])).asOptional)]

theorem accepts_eq_valid_sample :
    Exportable sample ∧ Json.Exact (.object [("name", .null), ("marks", .array [.integer 3])]) ∧
      sample.accepts (.object [("name", .null), ("marks", .array [.integer 3])]) =
        valid sample.toJsonSchema (.object [("name", .null), ("marks", .array [.integer 3])]) := by
  have hmarks : Exportable (array (union [integer, literal (.string "none")])).asOptional := by
    refine .asOptional (.array (.union (by simp) fun v hv => ?_))
    simp only [List.mem_cons, List.not_mem_nil, or_false] at hv
    rcases hv with rfl | rfl
    · exact .integer
    · exact .literal rfl
  have hsample : Exportable sample := by
    refine .object fun e he => ?_
    simp only [List.mem_cons, List.not_mem_nil, or_false] at he
    rcases he with rfl | rfl
    · exact .asNullable (.minLength .string 1)
    · exact hmarks
  have hexact : Json.Exact (.object [("name", .null), ("marks", .array [.integer 3])]) := by
    intro n hn
    obtain rfl : n = 3 := by simpa [Json.numbers, Json.numbersOfFields, Json.numbersOfElements,
      Json.integer] using hn
    decide
  exact ⟨hsample, hexact, accepts_eq_valid hsample hexact⟩

end Validator
end Lexicon
