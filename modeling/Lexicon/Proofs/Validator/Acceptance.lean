import Mathlib
import Lexicon.Validator.Parse

/-!
# What validators accept

`Validator.admits` decides acceptance by recursion on the validator, without outputs, locations
and violations. `inspect_reports` shows that an inspection adds violations to those found before,
and none exactly for what is admitted. So `accepts` and `admits` are the same (`accepts_eq_admits`).
-/

namespace Lexicon

namespace Inspection

variable {α β : Type} {i : Inspection α} {ok ok' : Bool}

/-- The inspection adds violations to those found before, and none if and only if `ok`. -/
def Reports (i : Inspection α) (ok : Bool) : Prop :=
  ∃ output found, (∀ before, i.run before = (output, before ++ found)) ∧ found.isEmpty = ok

theorem reports_pure (x : α) : Reports (pure x) true :=
  ⟨x, [], fun before => by rw [List.append_nil]; rfl, rfl⟩

theorem reports_reject (location : String) (fault : Fault) :
    Reports (reject location fault) false :=
  ⟨(), [⟨location, fault⟩], fun _ => rfl, rfl⟩

theorem reports_bind {f : α → Inspection β} (hi : Reports i ok) (hf : ∀ x, Reports (f x) ok') :
    Reports (i >>= f) (ok && ok') := by
  obtain ⟨x, found, hrun, hok⟩ := hi
  obtain ⟨y, found', hrun', hok'⟩ := hf x
  refine ⟨y, found ++ found', fun before => ?_, ?_⟩
  · have hbind : (i >>= f).run before = (f (i.run before).1).run (i.run before).2 := rfl
    rw [hbind, hrun, hrun', List.append_assoc]
  · rw [← hok, ← hok']
    cases found <;> rfl

theorem reports_bind_pure (f : α → β) (hi : Reports i ok) :
    Reports (i >>= fun x => pure (f x)) ok := by
  have h := reports_bind hi fun x => reports_pure (f x)
  rwa [Bool.and_true] at h

theorem reports_rejectIf {condition : Bool} (location : String) (fault : Fault)
    (h : condition = !ok) : Reports (rejectIf condition location fault) ok := by
  cases ok with
  | false =>
    rw [h]
    exact reports_reject location fault
  | true =>
    rw [h]
    exact reports_pure ()

/-- A rule that is not given admits everything. -/
theorem reports_check {γ : Type} (rule : Option γ) {violated admits : γ → Bool} (location : String)
    (fault : γ → Fault) (h : ∀ x, violated x = !admits x) :
    Reports (check rule violated location fault) (rule.all admits) := by
  cases rule with
  | none => exact reports_pure ()
  | some x => exact reports_rejectIf location (fault x) (h x)

theorem reports_mapM {xs : List β} {f : β → Inspection α} {admits : β → Bool}
    (h : ∀ x ∈ xs, Reports (f x) (admits x)) : Reports (xs.mapM f) (xs.all admits) := by
  induction xs with
  | nil => exact reports_pure []
  | cons x rest ih =>
    rw [List.mapM_cons, List.all_cons]
    have hrest := ih fun y hy => h y (List.mem_cons_of_mem _ hy)
    refine reports_bind (h x (List.mem_cons_self ..)) fun output => ?_
    exact reports_bind_pure (output :: ·) hrest

/-- An output that was found is put out, and where none was there is a violation. -/
theorem reports_outputOrReject (location : String) (fault : Fault) (found : Option (Option Json)) :
    Reports (match found with
      | some output => pure output
      | none => do
        reject location fault
        return none) found.isSome := by
  cases found with
  | some output => exact reports_pure output
  | none => exact reports_bind_pure _ (reports_reject location fault)

theorem isSome_clean? (h : Reports i ok) : (clean? i).isSome = ok := by
  obtain ⟨output, found, hrun, hok⟩ := h
  unfold clean?
  rw [hrun, ← hok]
  cases found <;> rfl

end Inspection

open Inspection (Reports reports_pure reports_reject reports_rejectIf reports_check reports_bind
  reports_bind_pure reports_mapM reports_outputOrReject isSome_clean?)

def NumberRules.admits (rules : NumberRules) (value : Json) : Bool :=
  match rules.valueOf? value with
  | none => false
  | some x =>
    (!rules.whole || x.isWhole) && rules.minimum.all (· ≤ x) && rules.maximum.all (x ≤ ·) &&
      rules.oneOf.all (·.any x.same)

def StringRules.admits (rules : StringRules) : Json → Bool
  | .string s =>
    rules.minLength.all (· ≤ s.length) && rules.maxLength.all (s.length ≤ ·) &&
      rules.oneOf.all (·.contains s) && (rules.accept.isEmpty || rules.accept.any (mimeMatches · s))
  | _ => false

mutual

def Validator.admits : Validator → Option Json → Bool
  | ⟨kind, optional, nullable, default, _⟩, input =>
    match input.or default with
    | some value => nullable && value.isNull || kind.admits value
    | none =>
      match kind with
      | .any | .unknown => true
      | _ => optional

def Kind.admits : Kind Validator → Json → Bool
  | .any, _ | .unknown, _ => true
  | .never, _ => false
  | .null, value => value.isNull
  | .boolean, value => value.bool?.isSome
  | .string rules, value => rules.admits value
  | .number rules, value => rules.admits value
  | .literal expected, value => value.same expected
  | .array items minItems maxItems, .array elements =>
    minItems.all (· ≤ elements.length) && maxItems.all (elements.length ≤ ·) &&
      elements.all fun element => items.admits (some element)
  | .array _ _ _, _ => false
  | .object fields, .object values => admitsFields fields values
  | .object _, _ => false
  | .union branches, value => admitsBranch branches value
  | .tagged field branches closed, value =>
    let tag := (value.get? field).bind Json.string?
    match tag.bind (admitsTagged branches value) with
    | some ok => ok
    | none => !(tag.isSome && closed) && admitsAny branches value

def admitsFields : List (String × Validator) → Entries Json → Bool
  | [], _ => true
  | (key, v) :: rest, values => v.admits (values.find? key) && admitsFields rest values

def admitsBranch : List Validator → Json → Bool
  | [], _ => false
  | v :: rest, value => v.admits (some value) || admitsBranch rest value

def admitsAny : List (String × Validator) → Json → Bool
  | [], _ => false
  | (_, v) :: rest, value => v.admits (some value) || admitsAny rest value

def admitsTagged : List (String × Validator) → Json → String → Option Bool
  | [], _, _ => none
  | (name, v) :: rest, value, tag =>
    if name = tag then some (v.admits (some value)) else admitsTagged rest value tag

end

theorem Binary64.decide_lt_eq (x y : Binary64) : decide (x < y) = !decide (y ≤ x) := by
  by_cases h : x < y
  · have hle : ¬ y ≤ x := by
      rw [lt_iff] at h
      rw [le_iff]
      omega
    rw [decide_eq_true h, decide_eq_false hle]
    rfl
  · have hle : y ≤ x := by
      rw [lt_iff] at h
      rw [le_iff]
      omega
    rw [decide_eq_false h, decide_eq_true hle]
    rfl

theorem decide_lt_eq (m n : Nat) : decide (m < n) = !decide (n ≤ m) := by
  by_cases h : m < n
  · simp [h]
  · simp [h, Nat.le_of_not_lt h]

theorem NumberRules.inspect_reports (rules : NumberRules) (location : String) (value : Json) :
    Reports (rules.inspect location value) (rules.admits value) := by
  unfold NumberRules.inspect NumberRules.admits
  cases rules.valueOf? value with
  | none => exact reports_bind (reports_reject ..) fun _ => reports_pure none
  | some x =>
    have hwhole : (rules.whole && !x.isWhole) = !(!rules.whole || x.isWhole) := by simp
    simp only [Bool.and_assoc]
    refine reports_bind (reports_rejectIf location (.fractional x) hwhole) fun _ => ?_
    refine reports_bind (reports_check rules.minimum location _ x.decide_lt_eq) fun _ => ?_
    refine reports_bind (reports_check rules.maximum location _ (·.decide_lt_eq x)) fun _ => ?_
    exact reports_bind_pure _ (reports_check rules.oneOf location _ fun _ => rfl)

theorem StringRules.inspect_reports (rules : StringRules) (location : String) (value : Json) :
    Reports (rules.inspect location value) (rules.admits value) := by
  cases value with
  | string s =>
    have hmime : (!rules.accept.isEmpty && !rules.accept.any (mimeMatches · s)) =
        !(rules.accept.isEmpty || rules.accept.any (mimeMatches · s)) := by simp
    unfold StringRules.inspect StringRules.admits
    simp only [Bool.and_assoc]
    refine reports_bind (reports_check rules.minLength location _ (decide_lt_eq _)) fun _ => ?_
    refine reports_bind (reports_check rules.maxLength location _ (decide_lt_eq · _)) fun _ => ?_
    refine reports_bind (reports_check rules.oneOf location _ fun _ => rfl) fun _ => ?_
    exact reports_bind_pure _ (reports_rejectIf location _ hmime)
  | _ => exact reports_bind (reports_reject ..) fun _ => reports_pure none

mutual

theorem Validator.inspect_reports (location : String) : ∀ (v : Validator) (input : Option Json),
    Reports (v.inspect location input) (v.admits input)
  | ⟨kind, optional, nullable, default, description⟩, input => by
    unfold Validator.inspect Validator.admits
    cases input.or default with
    | some value =>
      by_cases hnull : (nullable && value.isNull) = true
      · simp only [hnull, if_true, Bool.true_or]
        exact reports_pure _
      · simp only [hnull, Bool.false_or]
        exact Kind.inspect_reports location kind value
    | none =>
      cases kind with
      | any => exact reports_pure none
      | unknown => exact reports_pure none
      | _ => exact reports_bind_pure _ (reports_rejectIf location .required rfl)

theorem Kind.inspect_reports (location : String) : ∀ (kind : Kind Validator) (value : Json),
    Reports (kind.inspect location value) (kind.admits value)
  | .any, value | .unknown, value => by
    rw [Kind.inspect, Kind.admits]
    exact reports_pure _
  | .never, value => by
    rw [Kind.inspect, Kind.admits]
    exact reports_bind_pure _ (reports_reject ..)
  | .null, value => by
    rw [Kind.inspect, Kind.admits]
    exact reports_bind_pure _ (reports_rejectIf _ _ rfl)
  | .boolean, value => by
    rw [Kind.inspect, Kind.admits]
    exact reports_bind_pure _ (reports_rejectIf _ _ (by simp))
  | .string rules, value => by
    rw [Kind.inspect, Kind.admits]
    exact rules.inspect_reports location value
  | .number rules, value => by
    rw [Kind.inspect, Kind.admits]
    exact rules.inspect_reports location value
  | .literal expected, value => by
    rw [Kind.inspect, Kind.admits]
    exact reports_bind_pure _ (reports_rejectIf _ _ rfl)
  | .array items minItems maxItems, .array elements => by
    rw [Kind.inspect, Kind.admits, Bool.and_assoc]
    refine reports_bind (reports_check _ _ _ (decide_lt_eq _)) fun _ => ?_
    refine reports_bind (reports_check _ _ _ (decide_lt_eq · _)) fun _ => ?_
    have hall : (elements.all fun element => items.admits (some element)) =
        elements.zipIdx.all fun e => items.admits (some e.1) := by
      have hmap : elements.zipIdx.map Prod.fst = elements := List.zipIdx_map_fst ..
      conv => lhs; rw [← hmap, List.all_map]
      rfl
    rw [hall]
    exact reports_bind_pure _ (reports_mapM fun e _ => items.inspect_reports _ (some e.1))
  | .object fields, .object values => by
    rw [Kind.inspect, Kind.admits]
    exact reports_bind_pure _ (inspectFields_reports location fields values [])
  | .union branches, value => by
    rw [Kind.inspect, Kind.admits, ← isSome_firstBranch location branches value]
    exact reports_outputOrReject ..
  | .tagged field branches closed, value => by
    have hany := reports_outputOrReject location (.noBranch branches.length)
      (firstTagged location branches value)
    rw [isSome_firstTagged] at hany
    unfold Kind.inspect Kind.admits
    dsimp only
    cases (value.get? field).bind Json.string? with
    | none => exact hany
    | some tag =>
      have htagged := inspectTagged_reports location field branches value tag
      rw [Option.bind_some, Option.bind_some]
      generalize inspectTagged location field branches value tag = inspected at htagged ⊢
      generalize admitsTagged branches value tag = admitted at htagged ⊢
      cases htagged with
      | some hbranch => exact hbranch
      | none =>
        cases closed with
        | true => exact reports_bind_pure _ (reports_reject ..)
        | false => exact hany
  | .array _ _ _, .null | .array _ _ _, .bool _ | .array _ _ _, .number _ | .array _ _ _, .string _
  | .array _ _ _, .object _ | .object _, .null | .object _, .bool _ | .object _, .number _
  | .object _, .string _ | .object _, .array _ => by
    rw [Kind.inspect, Kind.admits]
    · exact reports_bind_pure _ (reports_reject ..)
    all_goals exact nofun

theorem inspectFields_reports (location : String) :
    ∀ (fields : List (String × Validator)) (values outputs : Entries Json),
      Reports (inspectFields location fields values outputs) (admitsFields fields values)
  | [], values, outputs => by
    rw [inspectFields, admitsFields]
    exact reports_pure outputs
  | (key, v) :: rest, values, outputs => by
    rw [inspectFields, admitsFields]
    refine reports_bind (v.inspect_reports _ _) fun output => ?_
    cases output with
    | none => exact inspectFields_reports location rest values outputs
    | some output => exact inspectFields_reports location rest values (outputs.insert key output)

theorem isSome_firstBranch (location : String) : ∀ (branches : List Validator) (value : Json),
    (firstBranch location branches value).isSome = admitsBranch branches value
  | [], value => by
    rw [firstBranch, admitsBranch]
    rfl
  | v :: rest, value => by
    have hv := isSome_clean? (v.inspect_reports location (some value))
    rw [firstBranch, admitsBranch, ← isSome_firstBranch location rest value, ← hv]
    cases Inspection.clean? (v.inspect location (some value)) <;> rfl

theorem isSome_firstTagged (location : String) :
    ∀ (branches : List (String × Validator)) (value : Json),
      (firstTagged location branches value).isSome = admitsAny branches value
  | [], value => by
    rw [firstTagged, admitsAny]
    rfl
  | (_, v) :: rest, value => by
    have hv := isSome_clean? (v.inspect_reports location (some value))
    rw [firstTagged, admitsAny, ← isSome_firstTagged location rest value, ← hv]
    cases Inspection.clean? (v.inspect location (some value)) <;> rfl

/-- A tag that names no branch names none in either function. -/
theorem inspectTagged_reports (location field : String) :
    ∀ (branches : List (String × Validator)) (value : Json) (tag : String),
      Option.Rel Reports (inspectTagged location field branches value tag)
        (admitsTagged branches value tag)
  | [], value, tag => by
    rw [inspectTagged, admitsTagged]
    exact .none
  | (name, v) :: rest, value, tag => by
    rw [inspectTagged, admitsTagged]
    by_cases hname : name = tag
    · rw [if_pos hname, if_pos hname]
      exact .some (reports_bind_pure _ (v.inspect_reports location (some value)))
    · rw [if_neg hname, if_neg hname]
      exact inspectTagged_reports location field rest value tag

end

namespace Validator

/-- Acceptance without the inspection. -/
theorem accepts_eq_admits (v : Validator) (value : Json) :
    v.accepts value = v.admits (some value) := by
  obtain ⟨output, found, hrun, hok⟩ := v.inspect_reports "" (some value)
  have hempty := hrun []
  rw [List.nil_append] at hempty
  unfold accepts parse parseField
  rw [hempty, ← hok]
  cases found <;> rfl

end Validator
end Lexicon
