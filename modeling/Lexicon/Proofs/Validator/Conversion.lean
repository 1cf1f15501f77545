import Lexicon.Proofs.Validator.Acceptance

/-!
# What validators make of values

`Validator.convert?` gives the value that a validator makes of another one, by recursion on the
validator, without locations and violations; there is none for a value that is refused. It is the
output of an inspection that finds no violation (`Validator.clean?_inspect`), so parsing and
converting are the same (`parse_eq_ok`).
-/

namespace Lexicon

namespace Inspection

variable {α β : Type} {i : Inspection α} {ok ok' : Bool}

/-- A clean inspection in two steps is clean in each. -/
theorem clean?_bind {f : α → Inspection β} (hi : Reports i ok) (hf : ∀ x, Reports (f x) ok') :
    clean? (i >>= f) = (clean? i).bind fun x => clean? (f x) := by
  obtain ⟨x, found, hrun, -⟩ := hi
  obtain ⟨y, found', hrun', -⟩ := hf x
  have hbind : (i >>= f).run [] = (f (i.run []).1).run (i.run []).2 := rfl
  unfold clean?
  rw [hbind, hrun, List.nil_append, hrun']
  cases found with
  | nil =>
    dsimp only [Option.bind_some]
    rw [hrun']
  | cons => rfl

theorem clean?_bind_pure (f : α → β) (hi : Reports i ok) :
    clean? (i >>= fun x => pure (f x)) = (clean? i).map f := by
  rw [clean?_bind hi fun x => reports_pure (f x), Option.map_eq_bind]
  rfl

theorem clean?_map (f : α → β) (hi : Reports i ok) : clean? (f <$> i) = (clean? i).map f :=
  clean?_bind_pure f hi

def Returns (i : Inspection α) (x : α) : Prop := ∀ before, (i.run before).1 = x

theorem returns_pure (x : α) : Returns (pure x) x := fun _ => rfl

theorem returns_bind {f : α → Inspection β} {y : β} (hf : ∀ x, Returns (f x) y) :
    Returns (i >>= f) y :=
  fun before => hf (i.run before).1 (i.run before).2

theorem clean?_of_reports {x : α} (hi : Reports i ok) (hx : Returns i x) :
    clean? i = if ok then some x else none := by
  obtain ⟨output, found, hrun, rfl⟩ := hi
  have houtput := hx []
  unfold clean?
  rw [hrun] at houtput ⊢
  subst houtput
  cases found <;> rfl

/-- A check comes before what follows it. -/
theorem clean?_check_bind {i : Inspection Unit} {j : Inspection β} (hi : Reports i ok)
    (hj : Reports j ok') : clean? (i >>= fun _ => j) = if ok then clean? j else none := by
  rw [clean?_bind hi fun _ => hj, @clean?_of_reports _ i ok () hi fun _ => rfl]
  cases ok <;> rfl

theorem clean?_mapM {xs : List β} {f : β → Inspection α} {admits : β → Bool}
    (h : ∀ x ∈ xs, Reports (f x) (admits x)) :
    clean? (xs.mapM f) = xs.mapM fun x => clean? (f x) := by
  induction xs with
  | nil => rfl
  | cons x rest ih =>
    have hrest : ∀ y ∈ rest, Reports (f y) (admits y) := fun y hy => h y (List.mem_cons_of_mem _ hy)
    rw [List.mapM_cons, List.mapM_cons,
      clean?_bind (h x (List.mem_cons_self ..)) fun output =>
        reports_bind_pure (output :: ·) (reports_mapM hrest)]
    refine congrArg _ (funext fun output => ?_)
    rw [clean?_bind_pure _ (reports_mapM hrest), ih hrest, Option.map_eq_bind]
    rfl

theorem clean?_outputOrReject (location : String) (fault : Fault) (found : Option Json) :
    clean? (match found.map some with
      | some output => pure output
      | none => do
        reject location fault
        return none) = found.map some := by
  cases found <;> rfl

end Inspection

open Inspection (clean? clean?_bind clean?_bind_pure clean?_map clean?_of_reports
  clean?_check_bind clean?_mapM clean?_outputOrReject
  Reports reports_pure reports_reject reports_rejectIf reports_check reports_bind
  reports_bind_pure reports_mapM Returns returns_pure returns_bind)

mutual

def Validator.convert? : Validator → Json → Option Json
  | ⟨kind, _, nullable, _, _⟩, value =>
    if nullable && value.isNull then some .null else kind.convert? value

def Kind.convert? : Kind Validator → Json → Option Json
  | .any, value | .unknown, value => some value
  | .never, _ => none
  | .null, value => if value.isNull then some .null else none
  | .boolean, value => if value.bool?.isSome then some value else none
  | .string rules, value => if rules.admits value then some value else none
  | .number rules, value =>
    if rules.admits value then (rules.valueOf? value).map rules.output else none
  | .literal expected, value => if value.same expected then some value else none
  | .array items minItems maxItems, .array elements =>
    if minItems.all (· ≤ elements.length) && maxItems.all (elements.length ≤ ·) then
      (elements.mapM items.convert?).map .array
    else none
  | .array _ _ _, _ => none
  | .object fields, .object values =>
    (convertFields fields values).map fun outputs => .object (Entries.ofList outputs)
  | .object _, _ => none
  | .union branches, value => convertBranch branches value
  | .tagged field branches closed, value =>
    let tag := (value.get? field).bind Json.string?
    match tag.bind (convertTagged field branches value) with
    | some output => output
    | none => if tag.isSome && closed then none else convertAny branches value

def convertFields : List (String × Validator) → Entries Json → Option (Entries Json)
  | [], _ => some []
  | (key, v) :: rest, values =>
    match (values.find? key).or v.default with
    | some value => do return (key, ← v.convert? value) :: (← convertFields rest values)
    | none => if v.acceptsMissing then convertFields rest values else none

def convertBranch : List Validator → Json → Option Json
  | [], _ => none
  | v :: rest, value => (v.convert? value).or (convertBranch rest value)

def convertAny : List (String × Validator) → Json → Option Json
  | [], _ => none
  | (_, v) :: rest, value => (v.convert? value).or (convertAny rest value)

def convertTagged (field : String) :
    List (String × Validator) → Json → String → Option (Option Json)
  | [], _, _ => none
  | (name, v) :: rest, value, tag =>
    if name = tag then some (restoreTag field tag (v.convert? value))
    else convertTagged field rest value tag

end

/-- The value that a validator makes of one that may be missing, or that it stays missing. -/
def Validator.convertField? (v : Validator) (input : Option Json) : Option (Option Json) :=
  match input.or v.default with
  | some value => (v.convert? value).map some
  | none => if v.acceptsMissing then some none else none

theorem Validator.convertField?_some (v : Validator) (value : Json) :
    v.convertField? (some value) = (v.convert? value).map some := rfl

/-- Where null is let through, it is put out as it is. -/
theorem Validator.convert?_eq (v : Validator) (x : Json) :
    v.convert? x = if v.nullable && x.isNull then some x else v.kind.convert? x := by
  obtain ⟨kind, optional, nullable, default, description⟩ := v
  cases x with
  | null => rw [convert?]
  | _ => simp only [convert?, Json.isNull, Bool.and_false, Bool.false_eq_true, if_false]

theorem Validator.convert?_of_not_nullable {v : Validator} (h : v.nullable = false) (x : Json) :
    v.convert? x = v.kind.convert? x := by
  rw [convert?_eq, h, Bool.false_and, if_neg Bool.false_ne_true]

/-- A field is left out when it is missing and may be. -/
theorem Validator.convertField?_eq_none {v : Validator} {input : Option Json} :
    v.convertField? input = some none ↔ input.or v.default = none ∧ v.acceptsMissing = true := by
  unfold Validator.convertField?
  cases input.or v.default with
  | some x => simp
  | none => cases v.acceptsMissing <;> simp

/-- The output for a field is left out again, or it is what the validator makes of a value. -/
theorem Validator.convertField?_cases {v : Validator} {input output : Option Json}
    (h : v.convertField? input = some output) :
    output = none ∧ v.convertField? none = some none ∨
      ∃ x y, output = some y ∧ v.convert? x = some y := by
  cases output with
  | none =>
    obtain ⟨hvalue, hmissing⟩ := convertField?_eq_none.mp h
    exact .inl ⟨rfl, convertField?_eq_none.mpr ⟨(Option.or_eq_none_iff.mp hvalue).2, hmissing⟩⟩
  | some y =>
    unfold Validator.convertField? at h
    cases hvalue : input.or v.default with
    | some x =>
      rw [hvalue] at h
      obtain ⟨z, hz, heq⟩ := Option.map_eq_some_iff.mp h
      cases heq
      exact .inr ⟨x, y, rfl, hz⟩
    | none =>
      rw [hvalue] at h
      cases hmissing : v.acceptsMissing <;> simp [hmissing] at h

theorem convertFields_cons (key : String) (v : Validator) (rest : List (String × Validator))
    (values : Entries Json) :
    convertFields ((key, v) :: rest) values =
      (v.convertField? (values.find? key)).bind fun output =>
        (convertFields rest values).map (Json.field? key output ++ ·) := by
  rw [convertFields, Validator.convertField?]
  cases (values.find? key).or v.default with
  | none =>
    dsimp only
    cases v.acceptsMissing <;> simp [Json.field?]
  | some value =>
    dsimp only
    cases v.convert? value <;> cases convertFields rest values <;> rfl

theorem StringRules.clean?_inspect (rules : StringRules) (location : String) (value : Json) :
    clean? (rules.inspect location value) =
      (if rules.admits value then some value else none).map some := by
  rw [apply_ite (Option.map some)]
  cases value with
  | string s =>
    refine clean?_of_reports (rules.inspect_reports location _) ?_
    exact returns_bind fun _ => returns_bind fun _ => returns_bind fun _ => returns_bind fun _ =>
      returns_pure _
  | _ => rfl

theorem NumberRules.clean?_inspect (rules : NumberRules) (location : String) (value : Json) :
    clean? (rules.inspect location value) =
      (if rules.admits value then (rules.valueOf? value).map rules.output else none).map some := by
  have hreports := rules.inspect_reports location value
  rw [apply_ite (Option.map some)]
  unfold NumberRules.inspect NumberRules.admits at *
  cases hvalue : rules.valueOf? value with
  | none => rfl
  | some x =>
    rw [hvalue] at hreports
    refine clean?_of_reports hreports ?_
    exact returns_bind fun _ => returns_bind fun _ => returns_bind fun _ => returns_bind fun _ =>
      returns_pure _

theorem mapM_map_some {α β : Type} (f : α → Option β) (xs : List α) :
    (xs.mapM fun x => (f x).map some) = (xs.mapM f).map (·.map some) := by
  induction xs with
  | nil => rfl
  | cons x rest ih =>
    rw [List.mapM_cons, List.mapM_cons, ih]
    cases f x with
    | none => rfl
    | some y => cases rest.mapM f <;> rfl

theorem mapM_zipIdx_fst {α β : Type} (xs : List α) (f : α → Option β) :
    (xs.zipIdx.mapM fun e => f e.1) = xs.mapM f := by
  have hfst : xs.zipIdx.map Prod.fst = xs := List.zipIdx_map_fst ..
  conv => rhs; rw [← hfst, List.mapM_map]
  rfl

/-- One level of an inspection: an array is converted element by element. -/
theorem clean?_inspect_array {items : Validator}
    (h : ∀ location x, clean? (items.inspect location (some x)) = (items.convert? x).map some)
    (minItems maxItems : Option Nat) (location : String) (elements : List Json) :
    clean? ((Kind.array items minItems maxItems).inspect location (.array elements)) =
      ((Kind.array items minItems maxItems).convert? (.array elements)).map some := by
  have hitems : ∀ e ∈ elements.zipIdx,
      Reports (items.inspect (Pointer.child location (toString e.2)) (some e.1))
        (items.admits (some e.1)) := fun e _ => items.inspect_reports _ (some e.1)
  have houtputs := reports_bind_pure (fun outputs => some (Json.array (outputs.map (·.getD .null))))
    (reports_mapM hitems)
  have hclean : (elements.zipIdx.mapM fun e =>
      clean? (items.inspect (Pointer.child location (toString e.2)) (some e.1))) =
        (elements.mapM items.convert?).map (·.map some) := by
    simp only [h]
    rw [← mapM_map_some, mapM_zipIdx_fst elements fun element => (items.convert? element).map some]
  have hsome (outputs : List Json) : (outputs.map some).map (·.getD .null) = outputs := by simp
  have hmin := reports_check minItems location (Fault.tooFewItems · elements.length)
    (decide_lt_eq elements.length)
  have hmax := reports_check maxItems location (Fault.tooManyItems · elements.length)
    (decide_lt_eq · elements.length)
  rw [Kind.inspect, Kind.convert?, clean?_check_bind hmin (reports_bind hmax fun _ => houtputs),
    clean?_check_bind hmax houtputs, clean?_bind_pure _ (reports_mapM hitems), clean?_mapM hitems,
    hclean, Option.map_map]
  cases minItems.all (· ≤ elements.length) with
  | false => rfl
  | true =>
    cases maxItems.all (elements.length ≤ ·) with
    | false => rfl
    | true =>
      rw [Bool.and_self, if_pos rfl, if_pos rfl, if_pos rfl, Option.map_map]
      refine congrArg (Option.map · _) (funext fun outputs => ?_)
      exact congrArg (fun xs => some (Json.array xs)) (hsome outputs)

mutual

theorem Validator.clean?_inspect (location : String) : ∀ (v : Validator) (input : Option Json),
    clean? (v.inspect location input) = v.convertField? input
  | ⟨kind, optional, nullable, default, description⟩, input => by
    unfold Validator.inspect Validator.convertField?
    dsimp only
    cases hvalue : input.or default with
    | some value =>
      dsimp only
      rw [Validator.convert?]
      by_cases hnull : (nullable && value.isNull) = true
      · rw [if_pos hnull, if_pos hnull]
        rfl
      · rw [if_neg hnull, if_neg hnull]
        exact Kind.clean?_inspect location kind value
    | none =>
      obtain ⟨rfl, rfl⟩ := Option.or_eq_none_iff.mp hvalue
      unfold Validator.acceptsMissing
      cases kind with
      | _ => cases optional <;> rfl

theorem Kind.clean?_inspect (location : String) : ∀ (kind : Kind Validator) (value : Json),
    clean? (kind.inspect location value) = (kind.convert? value).map some
  | .any, value | .unknown, value => by
    rw [Kind.inspect, Kind.convert?]
    rfl
  | .never, value => by
    rw [Kind.inspect, Kind.convert?]
    rfl
  | .null, value => by
    rw [Kind.inspect, Kind.convert?]
    cases value <;> rfl
  | .boolean, value => by
    rw [Kind.inspect, Kind.convert?]
    cases value <;> rfl
  | .string rules, value => by
    rw [Kind.inspect, Kind.convert?]
    exact rules.clean?_inspect location value
  | .number rules, value => by
    rw [Kind.inspect, Kind.convert?]
    exact rules.clean?_inspect location value
  | .literal expected, value => by
    rw [Kind.inspect, Kind.convert?]
    cases value.same expected <;> rfl
  | .array items minItems maxItems, .array elements =>
    clean?_inspect_array (fun location x => items.clean?_inspect location (some x)) minItems maxItems
      location elements
  | .object fields, .object values => by
    rw [Kind.inspect, Kind.convert?, clean?_bind_pure _ (inspectFields_reports ..),
      clean?_inspectFields, Option.map_map, Option.map_map]
    rfl
  | .union branches, value => by
    rw [Kind.inspect, Kind.convert?, firstBranch_eq location branches value]
    exact clean?_outputOrReject ..
  | .tagged field branches closed, value => by
    have hany := clean?_outputOrReject location (.noBranch branches.length)
      (convertAny branches value)
    unfold Kind.inspect Kind.convert?
    dsimp only
    rw [firstTagged_eq location branches value]
    cases (value.get? field).bind Json.string? with
    | none => exact hany
    | some tag =>
      have htagged := clean?_inspectTagged location field branches value tag
      rw [Option.bind_some, Option.bind_some]
      generalize inspectTagged location field branches value tag = inspected at htagged ⊢
      generalize convertTagged field branches value tag = converted at htagged ⊢
      cases htagged with
      | some hbranch => exact hbranch
      | none =>
        cases closed with
        | true => rfl
        | false => exact hany
  | .array _ _ _, .null | .array _ _ _, .bool _ | .array _ _ _, .number _ | .array _ _ _, .string _
  | .array _ _ _, .object _ | .object _, .null | .object _, .bool _ | .object _, .number _
  | .object _, .string _ | .object _, .array _ => by
    rw [Kind.inspect, Kind.convert?]
    · rfl
    all_goals exact nofun

theorem clean?_inspectFields (location : String) :
    ∀ (fields : List (String × Validator)) (values outputs : Entries Json),
      clean? (inspectFields location fields values outputs) =
        (convertFields fields values).map outputs.insertAll
  | [], values, outputs => by
    rw [inspectFields, convertFields]
    rfl
  | (key, v) :: rest, values, outputs => by
    have hreports : ∀ output : Option Json, Reports (match output with
        | none => inspectFields location rest values outputs
        | some y => inspectFields location rest values (outputs.insert key y))
          (admitsFields rest values) := by
      intro output
      cases output with
      | none => exact inspectFields_reports location rest values outputs
      | some y => exact inspectFields_reports location rest values (outputs.insert key y)
    rw [inspectFields, convertFields_cons, ← v.clean?_inspect (Pointer.child location key),
      Option.map_bind]
    refine (clean?_bind (v.inspect_reports ..) hreports).trans ?_
    refine congrArg _ (funext fun output => ?_)
    rw [Function.comp_apply, Option.map_map]
    cases output with
    | none => exact clean?_inspectFields location rest values outputs
    | some y => exact clean?_inspectFields location rest values (outputs.insert key y)

theorem firstBranch_eq (location : String) : ∀ (branches : List Validator) (value : Json),
    firstBranch location branches value = (convertBranch branches value).map some
  | [], value => by
    rw [firstBranch, convertBranch]
    rfl
  | v :: rest, value => by
    rw [firstBranch, convertBranch, Validator.clean?_inspect, Validator.convertField?_some]
    cases v.convert? value with
    | none => exact firstBranch_eq location rest value
    | some output => rfl

theorem firstTagged_eq (location : String) :
    ∀ (branches : List (String × Validator)) (value : Json),
      firstTagged location branches value = (convertAny branches value).map some
  | [], value => by
    rw [firstTagged, convertAny]
    rfl
  | (_, v) :: rest, value => by
    rw [firstTagged, convertAny, Validator.clean?_inspect, Validator.convertField?_some]
    cases v.convert? value with
    | none => exact firstTagged_eq location rest value
    | some output => rfl

theorem clean?_inspectTagged (location field : String) :
    ∀ (branches : List (String × Validator)) (value : Json) (tag : String),
      Option.Rel (fun inspected output => clean? inspected = output.map some)
        (inspectTagged location field branches value tag)
        (convertTagged field branches value tag)
  | [], value, tag => by
    rw [inspectTagged, convertTagged]
    exact .none
  | (name, v) :: rest, value, tag => by
    rw [inspectTagged, convertTagged]
    by_cases hname : name = tag
    · rw [if_pos hname, if_pos hname]
      refine .some ?_
      rw [clean?_map _ (v.inspect_reports ..), v.clean?_inspect, v.convertField?_some]
      cases v.convert? value with
      | none => rfl
      | some y => cases y <;> rfl
    · rw [if_neg hname, if_neg hname]
      exact clean?_inspectTagged location field rest value tag

end

namespace Validator

theorem parseField_eq_ok {v : Validator} {input output : Option Json} :
    v.parseField input = .ok output ↔ v.convertField? input = some output := by
  rw [← v.clean?_inspect "" input]
  unfold parseField clean?
  generalize (v.inspect "" input).run [] = result
  obtain ⟨found, violations⟩ := result
  cases violations <;> simp

/-- Parsing puts out what the validator makes of the value. -/
theorem parse_eq_ok {v : Validator} {x y : Json} : v.parse x = .ok y ↔ v.convert? x = some y := by
  unfold parse
  cases hconvert : v.convert? x with
  | none =>
    cases hparse : v.parseField (some x) with
    | error rejection => exact ⟨nofun, nofun⟩
    | ok output =>
      have hfield := parseField_eq_ok.mp hparse
      rw [convertField?_some, hconvert] at hfield
      exact nomatch hfield
  | some z =>
    have hparse : v.parseField (some x) = .ok (some z) := by
      rw [parseField_eq_ok, convertField?_some, hconvert]
      rfl
    rw [hparse]
    simp [Except.map]

end Validator
end Lexicon
