import Lexicon.Proofs.Validator.Output

/-!
# Inspections and their locations

An inspection leaves the violations before it as they are and adds its own at the end. The location
at which it runs stands before the pointers of what it adds, and nothing else depends on it
(`Validator.movable_inspect`): a child runs at the pointer of its key or index, and a branch that is
tried on its own is clean at one location if it is at all others. So the violations of an object are
those of its fields, one field after the other, and those of an array are those of its elements.
-/

namespace Lexicon

def Violation.under (w : Violation) (location : String) : Violation :=
  { w with location := location ++ w.location }

theorem Violation.map_under_empty (ws : List Violation) : ws.map (·.under "") = ws := by
  have hid : (fun w : Violation => w.under "") = id := by
    funext w
    rw [under, String.empty_append]
    rfl
  rw [hid, List.map_id]

theorem Violation.map_under_map (ws : List Violation) (location inner : String) :
    (ws.map (·.under inner)).map (·.under location) = ws.map (·.under (location ++ inner)) := by
  rw [List.map_map]
  refine List.map_congr_left fun w _ => ?_
  simp only [Function.comp_apply, under, String.append_assoc]

namespace Inspection

variable {α β : Type} {i : String → Inspection α} {x : α} {y : β} {found found' : List Violation}

/-- Wherever it runs, the inspection has the output `x` and adds what is in `found` there. -/
def Records (i : String → Inspection α) (x : α) (found : List Violation) : Prop :=
  ∀ location before, (i location).run before = (x, before ++ found.map (·.under location))

theorem Records.run_empty (h : Records i x found) : (i "").run [] = (x, found) := by
  rw [h, List.nil_append, Violation.map_under_empty]

theorem records_pure (x : α) : Records (fun _ => pure x) x [] := fun _ before => by
  rw [List.map_nil, List.append_nil]
  rfl

theorem records_reject (fault : Fault) : Records (reject · fault) () [⟨"", fault⟩] :=
  fun location before => by
    change ((), before ++ [(⟨location, fault⟩ : Violation)]) = _
    rw [List.map_singleton, Violation.under, String.append_empty]

theorem records_bind {f : α → String → Inspection β} (hi : Records i x found)
    (hf : Records (f x) y found') :
    Records (fun location => i location >>= fun x => f x location) y (found ++ found') := by
  intro location before
  have hbind : (i location >>= fun x => f x location).run before =
      (f ((i location).run before).1 location).run ((i location).run before).2 := rfl
  rw [hbind, hi, hf, List.map_append, List.append_assoc]

theorem records_map (f : α → β) (hi : Records i x found) :
    Records (fun location => i location >>= fun x => pure (f x)) (f x) found := by
  have h := records_bind (f := fun x _ => pure (f x)) hi (records_pure (f x))
  rwa [List.append_nil] at h

/-- At the child of a location, the pointer of the child comes before the location. -/
theorem records_child (token : String) (hi : Records i x found) :
    Records (fun location => i (Pointer.child location token)) x
      (found.map (·.under (Pointer.child "" token))) := by
  intro location before
  have hchild : location ++ Pointer.child "" token = Pointer.child location token := by
    rw [← Pointer.child_append, String.append_empty]
  rw [hi, Violation.map_under_map, hchild]

def Movable (i : String → Inspection α) : Prop := ∃ x found, Records i x found

theorem Records.movable (h : Records i x found) : Movable i := ⟨x, found, h⟩

theorem Movable.records (h : Movable i) : Records i ((i "").run []).1 ((i "").run []).2 := by
  obtain ⟨x, found, h⟩ := h
  rw [h.run_empty]
  exact h

theorem movable_pure (x : α) : Movable (fun _ => pure x) := ⟨x, [], records_pure x⟩

theorem movable_bind {f : α → String → Inspection β} (hi : Movable i) (hf : ∀ x, Movable (f x)) :
    Movable fun location => i location >>= fun x => f x location := by
  obtain ⟨x, found, hi⟩ := hi
  obtain ⟨y, found', hf⟩ := hf x
  exact ⟨y, found ++ found', records_bind hi hf⟩

theorem movable_map (f : α → β) (hi : Movable i) :
    Movable fun location => i location >>= fun x => pure (f x) :=
  movable_bind hi fun x => movable_pure (f x)

theorem movable_child (token : String) (hi : Movable i) :
    Movable fun location => i (Pointer.child location token) := by
  obtain ⟨x, found, hi⟩ := hi
  exact ⟨x, _, records_child token hi⟩

theorem movable_reject (fault : Fault) : Movable (reject · fault) := ⟨(), _, records_reject fault⟩

theorem movable_rejectIf (condition : Bool) (fault : Fault) :
    Movable (rejectIf condition · fault) := by
  cases condition with
  | false => exact movable_pure ()
  | true => exact movable_reject fault

theorem movable_outputOrReject (found : Option Json) (fault : Fault) :
    Movable fun location => match found.map some with
      | some output => pure output
      | none => do
        reject location fault
        return none := by
  cases found with
  | some output => exact movable_pure (some output)
  | none => exact movable_map _ (movable_reject fault)

theorem movable_check (rule : Option β) (violated : β → Bool) (fault : β → Fault) :
    Movable (check rule violated · fault) := by
  cases rule with
  | none => exact movable_pure ()
  | some x => exact movable_rejectIf (violated x) (fault x)

/-- A rule that holds adds nothing. -/
theorem check_eq_pure {rule : Option β} {violated : β → Bool} (h : ∀ x ∈ rule, violated x = false)
    (location : String) (fault : β → Fault) : check rule violated location fault = pure () := by
  cases rule with
  | none => rfl
  | some x => rw [check, rejectIf, h x rfl, if_neg Bool.false_ne_true]

theorem records_mapM {xs : List β} {f : β → String → Inspection α} {output : β → α}
    {added : β → List Violation} (h : ∀ x ∈ xs, Records (f x) (output x) (added x)) :
    Records (fun location => xs.mapM fun x => f x location) (xs.map output) (xs.flatMap added) := by
  induction xs with
  | nil => exact records_pure []
  | cons x rest ih =>
    obtain ⟨hx, hrest⟩ := List.forall_mem_cons.mp h
    simp only [List.mapM_cons, List.map_cons, List.flatMap_cons]
    exact records_bind (f := fun y location => do return y :: (← rest.mapM fun x => f x location))
      hx (records_map _ (ih hrest))

end Inspection

open Inspection (Records Movable records_pure records_bind records_map records_child records_mapM
  movable_pure movable_bind movable_map movable_child movable_reject movable_rejectIf movable_check
  movable_outputOrReject)

theorem NumberRules.movable_inspect (rules : NumberRules) (value : Json) :
    Movable (rules.inspect · value) := by
  unfold NumberRules.inspect
  cases rules.valueOf? value with
  | none => exact movable_map _ (movable_reject _)
  | some x =>
    refine movable_bind (movable_rejectIf _ _) fun _ => ?_
    refine movable_bind (movable_check _ _ _) fun _ => ?_
    refine movable_bind (movable_check _ _ _) fun _ => ?_
    exact movable_map _ (movable_check _ _ _)

theorem StringRules.movable_inspect (rules : StringRules) (value : Json) :
    Movable (rules.inspect · value) := by
  unfold StringRules.inspect
  cases value with
  | string s =>
    refine movable_bind (movable_check _ _ _) fun _ => ?_
    refine movable_bind (movable_check _ _ _) fun _ => ?_
    refine movable_bind (movable_check _ _ _) fun _ => ?_
    exact movable_map _ (movable_rejectIf _ _)
  | _ => exact movable_map _ (movable_reject _)

namespace Validator

def output (v : Validator) (input : Option Json) : Option Json := ((v.inspect "" input).run []).1

def violations (v : Validator) (input : Option Json) : List Violation :=
  ((v.inspect "" input).run []).2

end Validator

variable {fields branches : List (String × Validator)}

theorem records_elements {items : Validator} (h : ∀ input, Movable (items.inspect · input))
    (elements : List Json) :
    Records (fun location => elements.zipIdx.mapM fun e =>
        items.inspect (Pointer.child location (toString e.2)) (some e.1))
      (elements.zipIdx.map fun e => items.output (some e.1))
      (elements.zipIdx.flatMap fun e =>
        (items.violations (some e.1)).map (·.under (Pointer.child "" (toString e.2)))) :=
  records_mapM fun e _ => records_child (toString e.2) (h (some e.1)).records

theorem inspectFields_cons (location key : String) (v : Validator)
    (rest : List (String × Validator)) (values outputs : Entries Json) :
    inspectFields location ((key, v) :: rest) values outputs =
      v.inspect (Pointer.child location key) (values.find? key) >>= fun output =>
        inspectFields location rest values (output.elim outputs (outputs.insert key)) := by
  rw [inspectFields]
  refine bind_congr fun output => ?_
  cases output <;> rfl

theorem records_inspectFields (h : ∀ e ∈ fields, ∀ input, Movable (e.2.inspect · input))
    (values outputs : Entries Json) :
    ∃ outputs', Records (inspectFields · fields values outputs) outputs'
      (fields.flatMap fun e =>
        (e.2.violations (values.find? e.1)).map (·.under (Pointer.child "" e.1))) := by
  induction fields generalizing outputs with
  | nil =>
    simp only [inspectFields]
    exact ⟨outputs, records_pure outputs⟩
  | cons e rest ih =>
    obtain ⟨key, v⟩ := e
    obtain ⟨hv, hrest⟩ := List.forall_mem_cons.mp h
    have hfield := records_child key (hv (values.find? key)).records
    -- What the field puts out changes the outputs that the rest starts from, not what it adds.
    obtain ⟨outputs', hnext⟩ :=
      ih hrest ((v.output (values.find? key)).elim outputs (outputs.insert key))
    simp only [inspectFields_cons, List.flatMap_cons]
    exact ⟨outputs', records_bind (f := fun output location =>
      inspectFields location rest values (output.elim outputs (outputs.insert key))) hfield hnext⟩

/-- Which branch has the tag does not depend on the location. -/
theorem inspectTagged_cases (h : ∀ e ∈ branches, ∀ input, Movable (e.2.inspect · input))
    (field tag : String) (value : Json) :
    (∀ location, inspectTagged location field branches value tag = none) ∨
      ∃ i, Movable i ∧
        ∀ location, inspectTagged location field branches value tag = some (i location) := by
  induction branches with
  | nil => exact .inl fun _ => rfl
  | cons e rest ih =>
    obtain ⟨name, v⟩ := e
    obtain ⟨hv, hrest⟩ := List.forall_mem_cons.mp h
    simp only [inspectTagged]
    by_cases hname : name = tag
    · simp only [if_pos hname]
      exact .inr ⟨_, movable_map (restoreTag field tag) (hv (some value)), fun _ => rfl⟩
    · simp only [if_neg hname]
      exact ih hrest

/-- One level of an inspection: what is inside is movable. -/
theorem Kind.movable_inspect {kind : Kind Validator}
    (hparts : ∀ w ∈ kind.parts, ∀ input, Movable (w.inspect · input)) (value : Json) :
    Movable (kind.inspect · value) := by
  have hreject : ∀ fault : Fault, Movable fun location => (do
      Inspection.reject location fault
      return (none : Option Json)) := fun fault => movable_map _ (movable_reject fault)
  cases kind with
  | any | unknown => exact movable_pure _
  | never => exact hreject _
  | null | boolean | literal => exact movable_map _ (movable_rejectIf _ _)
  | string rules => exact rules.movable_inspect value
  | number rules => exact rules.movable_inspect value
  | array items minItems maxItems =>
    cases value with
    | array elements =>
      have hitems := hparts items (List.mem_singleton.mpr rfl)
      simp only [Kind.inspect]
      refine movable_bind (movable_check _ _ _) fun _ => ?_
      refine movable_bind (movable_check _ _ _) fun _ => ?_
      exact movable_map _ (records_elements hitems elements).movable
    | _ => exact hreject _
  | object fields =>
    cases value with
    | object values =>
      obtain ⟨outputs, hfields⟩ :=
        records_inspectFields (fun e he => hparts e.2 (List.mem_map_of_mem he)) values []
      simp only [Kind.inspect]
      exact movable_map _ hfields.movable
    | _ => exact hreject _
  | union branches =>
    simp only [Kind.inspect, firstBranch_eq]
    exact movable_outputOrReject (convertBranch branches value) _
  | tagged field branches closed =>
    have hbranches : ∀ e ∈ branches, ∀ input, Movable (e.2.inspect · input) :=
      fun e he => hparts e.2 (List.mem_map_of_mem he)
    have hany := movable_outputOrReject (convertAny branches value) (.noBranch branches.length)
    simp only [Kind.inspect, firstTagged_eq]
    cases (value.get? field).bind Json.string? with
    | none => exact hany
    | some tag =>
      simp only [Option.bind_some]
      obtain hnone | ⟨i, hi, hsome⟩ := inspectTagged_cases hbranches field tag value
      · simp only [hnone]
        cases closed with
        | false => exact hany
        | true => exact movable_child field (hreject _)
      · simp only [hsome]
        exact hi

namespace Validator

variable {v : Validator}

theorem movable_inspect (v : Validator) : ∀ input, Movable (v.inspect · input) := by
  induction v using induction_on_parts with
  | h v ih =>
    intro input
    obtain ⟨kind, optional, nullable, default, description⟩ := v
    simp only [inspect]
    cases input.or default with
    | some value =>
      dsimp only
      split
      · exact movable_pure _
      · exact Kind.movable_inspect ih value
    | none =>
      have hrequired : Movable fun location => (do
          Inspection.rejectIf (!optional) location .required
          return (none : Option Json)) := movable_map _ (movable_rejectIf _ _)
      cases kind with
      | any | unknown => exact movable_pure none
      | _ => exact hrequired

theorem violations_of_records {i : String → Inspection (Option Json)} {input x : Option Json}
    {found : List Violation} (hinspect : ∀ location, v.inspect location input = i location)
    (h : Records i x found) : v.violations input = found := by
  rw [violations, hinspect, h.run_empty]

/-- The value that is there, or the default for a missing one, is inspected by the kind. -/
theorem inspect_eq_of_not_null {input : Option Json} {value : Json}
    (h : input.or v.default = some value) (hnull : value.isNull = false) (location : String) :
    v.inspect location input = v.kind.inspect location value := by
  obtain ⟨kind, optional, nullable, default, description⟩ := v
  unfold inspect
  rw [h]
  dsimp only
  rw [hnull, Bool.and_false]
  rfl

theorem violations_object {fields : List (String × Validator)} {values : Entries Json}
    {input : Option Json} (hkind : v.kind = .object fields)
    (h : input.or v.default = some (.object values)) :
    v.violations input = fields.flatMap fun e =>
      (e.2.violations (values.find? e.1)).map (·.under (Pointer.child "" e.1)) := by
  obtain ⟨outputs, hfields⟩ := records_inspectFields (fun e _ => e.2.movable_inspect) values []
  refine violations_of_records (fun location => ?_)
    (records_map (fun outputs => some (Json.object outputs)) hfields)
  rw [inspect_eq_of_not_null h rfl, hkind, Kind.inspect]

theorem violations_array {items : Validator} {minItems maxItems : Option Nat}
    {elements : List Json} {input : Option Json} (hkind : v.kind = .array items minItems maxItems)
    (h : input.or v.default = some (.array elements)) (hmin : ∀ n ∈ minItems, n ≤ elements.length)
    (hmax : ∀ n ∈ maxItems, elements.length ≤ n) :
    v.violations input = elements.zipIdx.flatMap fun e =>
      (items.violations (some e.1)).map (·.under (Pointer.child "" (toString e.2))) := by
  have hmin : ∀ n ∈ minItems, decide (elements.length < n) = false :=
    fun n hn => decide_eq_false (Nat.not_lt.mpr (hmin n hn))
  have hmax : ∀ n ∈ maxItems, decide (n < elements.length) = false :=
    fun n hn => decide_eq_false (Nat.not_lt.mpr (hmax n hn))
  refine violations_of_records (fun location => ?_)
    (records_map (fun outputs => some (Json.array (outputs.map (·.getD .null))))
      (records_elements items.movable_inspect elements))
  rw [inspect_eq_of_not_null h rfl, hkind, Kind.inspect, Inspection.check_eq_pure hmin,
    Inspection.check_eq_pure hmax]
  rfl

/-- Earlier violations stay, and the location is only put before those that are added, whatever the
validator and its input are. So an object has the violations of its fields in the order of their
declaration, and an array of an allowed length those of its elements, each below the pointer of the
child. -/
theorem inspect_run (v : Validator) :
    (∀ location input before, (v.inspect location input).run before =
      (v.output input, before ++ (v.violations input).map (·.under location))) ∧
    (∀ fields values input, v.kind = .object fields → input.or v.default = some (.object values) →
      v.violations input = fields.flatMap fun e =>
        (e.2.violations (Entries.find? values e.1)).map (·.under (Pointer.child "" e.1))) ∧
    ∀ items minItems maxItems elements input, v.kind = .array items minItems maxItems →
      input.or v.default = some (.array elements) → (∀ n ∈ minItems, n ≤ elements.length) →
      (∀ n ∈ maxItems, elements.length ≤ n) →
      v.violations input = elements.zipIdx.flatMap fun e =>
        (items.violations (some e.1)).map (·.under (Pointer.child "" (toString e.2))) := by
  refine ⟨fun location input before => ?_, ?_, ?_⟩
  · exact (v.movable_inspect input).records location before
  · exact fun fields values input hkind h => violations_object hkind h
  · exact fun items minItems maxItems elements input hkind h hmin hmax =>
      violations_array hkind h hmin hmax

def sheet : Validator := object [("a/b", (array boolean).minLength 1), ("title", string)]

def badMarks : List Json := [.bool true, .nat 1]

theorem inspect_run_sheet :
    let x := some (Json.object [("a/b", .array badMarks)])
    sheet.violations x = sheet.fields.flatMap (fun e =>
      (e.2.violations (Entries.find? [("a/b", .array badMarks)] e.1)).map
        (·.under (Pointer.child "" e.1))) ∧
    ((array boolean).minLength 1).violations (some (.array badMarks)) =
      badMarks.zipIdx.flatMap (fun e => (boolean.violations (some e.1)).map
        (·.under (Pointer.child "" (toString e.2)))) ∧
    ((sheet.inspect "/rows/2" x).run [⟨"/rows/1", .required⟩]).2.map
        (fun w => (w.location, w.fault.message)) = [
      ("/rows/1", "required"),
      ("/rows/2/a~1b/1", "expected boolean, found number"),
      ("/rows/2/title", "required")] := by
  intro x
  refine ⟨(inspect_run sheet).2.1 _ _ x rfl rfl, ?_, ?_⟩
  · exact (inspect_run ((array boolean).minLength 1)).2.2 boolean (some 1) none badMarks _ rfl rfl
      (by decide) (by decide)
  · rw [(inspect_run sheet).1]
    decide

end Validator
end Lexicon
