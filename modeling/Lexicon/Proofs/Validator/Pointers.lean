import Lexicon.Proofs.Address
import Lexicon.Proofs.Validator.Acceptance
import Lexicon.Proofs.Validator.Output

/-!
# Violations point into the value

`Json.resolve?` reads a JSON Pointer as RFC 6901 has it: the tokens stand between slashes, `~1` and
`~0` in them are a slash and a tilde, and each token leads to an element or a field of the value
before it. A child pointer resolves to the child of what its parent resolves to, whatever characters
are in the key (`resolve?_child`).

Without defaults every value that an inspection sees is inside the value that is parsed. So each
violation points to a value there or, if it says that a field is required, to a key that an object
there lacks (`Validator.located_of_parse`).
-/

namespace Lexicon

/-! ## Reading pointers -/

namespace Pointer

/-- The characters that a token stands for. A tilde has to be followed by 0 or 1. -/
def unescape? : List Char → Option (List Char)
  | [] => some []
  | '~' :: '0' :: rest => (unescape? rest).map ('~' :: ·)
  | '~' :: '1' :: rest => (unescape? rest).map ('/' :: ·)
  | '~' :: _ => none
  | c :: rest => (unescape? rest).map (c :: ·)

def tokenOf? (part : List Char) : Option String := (unescape? part).map String.ofList

def tokens? (pointer : String) : Option (List String) :=
  match pointer.toList with
  | [] => some []
  | '/' :: rest => (Text.split '/' rest).mapM tokenOf?
  | _ => none

end Pointer

namespace Json

def child? : Json → String → Option Json
  | array elements, token =>
    (elements.zipIdx.find? fun e => toString e.2 == token).map Prod.fst
  | object fields, token => Entries.find? fields token
  | _, _ => none

def resolve? (x : Json) (pointer : String) : Option Json :=
  (Pointer.tokens? pointer).bind fun tokens => tokens.foldlM child? x

/-- The pointer without its last token leads to an object that has no field under this token. -/
def Lacks (x : Json) (pointer : String) : Prop :=
  ∃ parent token key fields, pointer = parent ++ "/" ++ token ∧ '/' ∉ token.toList ∧
    Pointer.unescape? token.toList = some key.toList ∧
    x.resolve? parent = some (object fields) ∧ key ∉ Entries.keys fields

end Json

namespace Pointer

theorem toList_escape (token : String) : (escape token).toList = token.toList.flatMap fun c =>
    if c = '~' then ['~', '0'] else if c = '/' then ['~', '1'] else [c] := by
  rw [escape, String.toList_ofList]

theorem unescape?_cons {c : Char} (h : c ≠ '~') (rest : List Char) :
    unescape? (c :: rest) = (unescape? rest).map (c :: ·) := by
  conv_lhs => unfold unescape?
  split <;> simp_all

theorem unescape?_escape (token : String) :
    unescape? (escape token).toList = some token.toList := by
  rw [toList_escape]
  induction token.toList with
  | nil => rfl
  | cons c rest ih =>
    rw [List.flatMap_cons]
    by_cases htilde : c = '~'
    · simp [htilde, unescape?, ih]
    · by_cases hslash : c = '/'
      · simp [hslash, unescape?, ih]
      · simp [htilde, hslash, unescape?_cons htilde, ih]

theorem slash_not_mem_escape (token : String) : '/' ∉ (escape token).toList := by
  rw [toList_escape]
  intro h
  obtain ⟨c, -, hc⟩ := List.mem_flatMap.mp h
  split at hc
  · simp at hc
  · split at hc
    · simp at hc
    · rename_i hslash
      exact hslash (List.mem_singleton.mp hc).symm

theorem tokens?_child (parent token : String) :
    tokens? (child parent token) = (tokens? parent).map (· ++ [token]) := by
  have htoken : (Text.split '/' (escape token).toList).mapM tokenOf? = some [token] := by
    rw [Text.split_of_not_mem (slash_not_mem_escape token)]
    simp [tokenOf?, unescape?_escape]
  have hlist : (child parent token).toList =
      parent.toList ++ '/' :: (escape token).toList := by simp [child]
  unfold tokens?
  rw [hlist]
  cases parent.toList with
  | nil => exact htoken
  | cons c rest =>
    by_cases hc : c = '/'
    · subst hc
      simp only [List.cons_append, Text.split_append, List.mapM_append, htoken]
      cases (Text.split '/' rest).mapM tokenOf? <;> rfl
    · simp [hc]

end Pointer

namespace Json

variable {x y : Json} {location : String}

@[simp] theorem resolve?_empty (x : Json) : x.resolve? "" = some x := rfl

theorem resolve?_child (x : Json) (parent token : String) :
    x.resolve? (Pointer.child parent token) = (x.resolve? parent).bind (child? · token) := by
  unfold resolve?
  rw [Pointer.tokens?_child]
  cases Pointer.tokens? parent with
  | none => rfl
  | some tokens => simp [List.foldlM_append]

theorem resolve?_element {elements : List Json} {e : Json × Nat}
    (h : x.resolve? location = some (array elements)) (he : e ∈ elements.zipIdx) :
    x.resolve? (Pointer.child location (toString e.2)) = some e.1 := by
  rw [resolve?_child, h, Option.bind_some, child?]
  have hsome : (elements.zipIdx.find? fun f => toString f.2 == toString e.2).isSome :=
    List.find?_isSome.mpr ⟨e, he, beq_self_eq_true _⟩
  obtain ⟨f, hf⟩ := Option.isSome_iff_exists.mp hsome
  have hindex : f.2 = e.2 := Address.toString_inj (by simpa using List.find?_some hf)
  have hvalue := List.mem_zipIdx_iff_getElem?.mp (List.mem_of_find?_eq_some hf)
  rw [hindex, List.mem_zipIdx_iff_getElem?.mp he] at hvalue
  rw [hf, Option.map_some, Option.some.inj hvalue]

theorem resolve?_field {fields : Entries Json} {key : String}
    (h : x.resolve? location = some (object fields)) (hy : fields.find? key = some y) :
    x.resolve? (Pointer.child location key) = some y := by
  rw [resolve?_child, h]
  exact hy

theorem lacks_child {fields : Entries Json} {key : String}
    (h : x.resolve? location = some (object fields)) (hkey : fields.find? key = none) :
    x.Lacks (Pointer.child location key) :=
  ⟨location, Pointer.escape key, key, fields, rfl, Pointer.slash_not_mem_escape key,
    Pointer.unescape?_escape key, h, (Entries.find?_eq_none_iff fields key).mp hkey⟩

end Json

/-! ## Inspections -/

namespace Inspection

variable {α β : Type} {P : Violation → Prop} {i : Inspection α} {location : String}

def Finds (P : Violation → Prop) (i : Inspection α) : Prop :=
  ∀ before, ∃ found, (i.run before).2 = before ++ found ∧ ∀ w ∈ found, P w

theorem finds_pure (x : α) : Finds P (pure x) := fun _ => ⟨[], (List.append_nil _).symm, nofun⟩

theorem finds_reject {fault : Fault} (h : P ⟨location, fault⟩) : Finds P (reject location fault) :=
  fun _ => ⟨[⟨location, fault⟩], rfl, fun _ hw => List.mem_singleton.mp hw ▸ h⟩

theorem finds_bind {f : α → Inspection β} (hi : Finds P i) (hf : ∀ x, Finds P (f x)) :
    Finds P (i >>= f) := by
  intro before
  obtain ⟨found, hrun, hfound⟩ := hi before
  obtain ⟨found', hrun', hfound'⟩ := hf (i.run before).1 (i.run before).2
  refine ⟨found ++ found', ?_, fun w hw => ?_⟩
  · have hbind : (i >>= f).run before = (f (i.run before).1).run (i.run before).2 := rfl
    rw [hbind, hrun', hrun, List.append_assoc]
  · exact (List.mem_append.mp hw).elim (hfound w) (hfound' w)

theorem finds_bind_pure (f : α → β) (hi : Finds P i) : Finds P (i >>= fun x => pure (f x)) :=
  finds_bind hi fun _ => finds_pure _

theorem finds_rejectIf {condition : Bool} {fault : Fault} (h : P ⟨location, fault⟩) :
    Finds P (rejectIf condition location fault) := by
  cases condition with
  | false => exact finds_pure ()
  | true => exact finds_reject h

theorem finds_check {rule : Option α} {violated : α → Bool} {fault : α → Fault}
    (h : ∀ x, P ⟨location, fault x⟩) : Finds P (check rule violated location fault) := by
  cases rule with
  | none => exact finds_pure ()
  | some x => exact finds_rejectIf (h x)

theorem finds_mapM {xs : List β} {f : β → Inspection α} (h : ∀ x ∈ xs, Finds P (f x)) :
    Finds P (xs.mapM f) := by
  induction xs with
  | nil => exact finds_pure []
  | cons x rest ih =>
    rw [List.mapM_cons]
    have hrest := ih fun y hy => h y (List.mem_cons_of_mem _ hy)
    exact finds_bind (h x (List.mem_cons_self ..)) fun output => finds_bind_pure (output :: ·) hrest

theorem finds_outputOrReject {fault : Fault} (found : Option (Option Json))
    (h : P ⟨location, fault⟩) : Finds P (match found with
      | some output => pure output
      | none => do
        reject location fault
        return none) := by
  cases found with
  | some output => exact finds_pure output
  | none => exact finds_bind_pure _ (finds_reject h)

end Inspection

/-- The violation points to a value inside `x`, or to a key that is required and missing there. -/
def Violation.Located (x : Json) (w : Violation) : Prop :=
  (w.fault ≠ .required → ∃ y, x.resolve? w.location = some y) ∧
    (w.fault = .required → x.Lacks w.location)

open Inspection (Finds finds_pure finds_reject finds_bind finds_bind_pure finds_rejectIf
  finds_check finds_mapM finds_outputOrReject)

section
variable {x value : Json} {location : String}

theorem Violation.Located.of_resolve {fault : Fault} (h : x.resolve? location = some value)
    (hfault : fault ≠ .required) : Violation.Located x ⟨location, fault⟩ :=
  ⟨fun _ => ⟨value, h⟩, fun he => absurd he hfault⟩

/-- A branch of a tagged union is inspected in the place of the union. -/
theorem finds_inspectTagged {P : Violation → Prop} {field tag : String}
    {branches : List (String × Validator)} {i : Inspection (Option Json)}
    (h : ∀ e ∈ branches, Finds P (e.2.inspect location (some value)))
    (hi : inspectTagged location field branches value tag = some i) : Finds P i := by
  induction branches with
  | nil => exact nomatch hi
  | cons e rest ih =>
    obtain ⟨name, v⟩ := e
    rw [inspectTagged] at hi
    split at hi
    · obtain rfl := Option.some.inj hi
      exact finds_bind_pure _ (h (name, v) (List.mem_cons_self ..))
    · exact ih (fun e he => h e (List.mem_cons_of_mem _ he)) hi

theorem finds_inspectFields {P : Violation → Prop} {fields : List (String × Validator)}
    {values : Entries Json} (outputs : Entries Json)
    (h : ∀ e ∈ fields, Finds P (e.2.inspect (Pointer.child location e.1) (values.find? e.1))) :
    Finds P (inspectFields location fields values outputs) := by
  induction fields generalizing outputs with
  | nil => exact finds_pure outputs
  | cons e rest ih =>
    obtain ⟨key, v⟩ := e
    rw [inspectFields]
    have hrest := fun outputs => ih outputs fun e he => h e (List.mem_cons_of_mem _ he)
    refine finds_bind (h (key, v) (List.mem_cons_self ..)) fun output => ?_
    cases output with
    | none => exact hrest outputs
    | some output => exact hrest (outputs.insert key output)

theorem NumberRules.finds_inspect (rules : NumberRules) (h : x.resolve? location = some value) :
    Finds (·.Located x) (rules.inspect location value) := by
  unfold NumberRules.inspect
  cases rules.valueOf? value with
  | none => exact finds_bind_pure _ (finds_reject (.of_resolve h nofun))
  | some n =>
    refine finds_bind (finds_rejectIf (.of_resolve h nofun)) fun _ => ?_
    refine finds_bind (finds_check fun _ => .of_resolve h nofun) fun _ => ?_
    refine finds_bind (finds_check fun _ => .of_resolve h nofun) fun _ => ?_
    exact finds_bind_pure _ (finds_check fun _ => .of_resolve h nofun)

theorem StringRules.finds_inspect (rules : StringRules) (h : x.resolve? location = some value) :
    Finds (·.Located x) (rules.inspect location value) := by
  cases value with
  | string s =>
    unfold StringRules.inspect
    refine finds_bind (finds_check fun _ => .of_resolve h nofun) fun _ => ?_
    refine finds_bind (finds_check fun _ => .of_resolve h nofun) fun _ => ?_
    refine finds_bind (finds_check fun _ => .of_resolve h nofun) fun _ => ?_
    exact finds_bind_pure _ (finds_rejectIf (.of_resolve h nofun))
  | _ => exact finds_bind_pure _ (finds_reject (.of_resolve h nofun))

def Json.Supplies (x : Json) (location : String) : Option Json → Prop
  | some value => x.resolve? location = some value
  | none => x.Lacks location

/-- One level of an inspection: what is directly inside is inspected where it stands. -/
theorem Kind.finds_inspect {kind : Kind Validator}
    (hparts : ∀ w ∈ kind.parts, ∀ location input, x.Supplies location input →
      Finds (·.Located x) (w.inspect location input))
    (h : x.resolve? location = some value) : Finds (·.Located x) (kind.inspect location value) := by
  have hreject : ∀ fault : Fault, fault ≠ .required → Finds (Violation.Located x) (do
      Inspection.reject location fault
      return (none : Option Json)) :=
    fun fault hfault => finds_bind_pure _ (finds_reject (.of_resolve h hfault))
  cases kind with
  | any | unknown => exact finds_pure _
  | never => exact hreject _ (by simp)
  | null | boolean | literal => exact finds_bind_pure _ (finds_rejectIf (.of_resolve h (by simp)))
  | string rules => exact rules.finds_inspect h
  | number rules => exact rules.finds_inspect h
  | array items minItems maxItems =>
    cases value with
    | array elements =>
      unfold Kind.inspect
      dsimp only
      refine finds_bind (finds_check fun _ => .of_resolve h (by simp)) fun _ => ?_
      refine finds_bind (finds_check fun _ => .of_resolve h (by simp)) fun _ => ?_
      refine finds_bind_pure _ (finds_mapM fun e he => ?_)
      exact hparts items (List.mem_singleton.mpr rfl) _ _ (Json.resolve?_element h he)
    | _ => exact hreject _ (by simp)
  | object fields =>
    cases value with
    | object values =>
      unfold Kind.inspect
      refine finds_bind_pure _ (finds_inspectFields [] fun e he => ?_)
      refine hparts e.2 (List.mem_map_of_mem he) _ _ ?_
      cases hfield : Entries.find? values e.1 with
      | some y => exact Json.resolve?_field h hfield
      | none => exact Json.lacks_child h hfield
    | _ => exact hreject _ (by simp)
  | union branches =>
    unfold Kind.inspect
    exact finds_outputOrReject _ (.of_resolve h (by simp))
  | tagged field branches closed =>
    have hbranches : ∀ e ∈ branches, Finds (Violation.Located x) (e.2.inspect location (some value)) :=
      fun e he => hparts e.2 (List.mem_map_of_mem he) _ _ h
    have hnone : Violation.Located x ⟨location, .noBranch branches.length⟩ :=
      .of_resolve h (by simp)
    have hany := finds_outputOrReject (firstTagged location branches value) hnone
    unfold Kind.inspect
    dsimp only
    cases htag : (value.get? field).bind Json.string? with
    | none => exact hany
    | some tag =>
      rw [Option.bind_some]
      cases hinspect : inspectTagged location field branches value tag with
      | some output => exact finds_inspectTagged hbranches hinspect
      | none =>
        cases closed with
        | false => exact hany
        | true =>
          -- The tag that is no member is the value of a field.
          obtain ⟨y, hy, -⟩ := Option.bind_eq_some_iff.mp htag
          cases value with
          | object values =>
            exact finds_bind_pure _ (finds_reject (.of_resolve (Json.resolve?_field h hy) (by simp)))
          | _ => cases hy

theorem Validator.finds_inspect {v : Validator} (hdefault : v.All (·.default = none))
    {input : Option Json} (h : x.Supplies location input) :
    Finds (·.Located x) (v.inspect location input) := by
  induction hdefault generalizing location input with
  | @intro v here _ ih =>
    obtain ⟨kind, optional, nullable, default, description⟩ := v
    obtain rfl : default = none := here
    unfold Validator.inspect
    rw [Option.or_none]
    cases input with
    | some value =>
      dsimp only
      split
      · exact finds_pure _
      · exact Kind.finds_inspect (fun w hw _ _ hinside => ih w hw hinside) h
    | none =>
      have hrequired : Finds (Violation.Located x) (do
          Inspection.rejectIf (!optional) location .required
          return (none : Option Json)) :=
        finds_bind_pure _ (finds_rejectIf ⟨fun hne => absurd rfl hne, fun _ => h⟩)
      cases kind with
      | any | unknown => exact finds_pure none
      | _ => exact hrequired

end

/-- All other messages have several words. -/
theorem Fault.message_eq_required_iff {fault : Fault} :
    fault.message = "required" ↔ fault = .required := by
  constructor
  · intro h
    have hspace : ' ' ∉ fault.message.toList := by
      rw [h]
      decide
    unfold message at hspace
    cases fault with
    | required => rfl
    | _ => simp [toString] at hspace
  · rintro rfl
    rfl

namespace Validator

variable {v : Validator} {x : Json} {r : Rejection} {w : Violation}

/-- The violations of a value point into it, if no default stands in for a part of it. -/
theorem located_of_parse (hdefault : v.All (·.default = none)) (h : v.parse x = .error r)
    (hw : w ∈ r.violations) :
    (w.fault.message ≠ "required" → ∃ y, x.resolve? w.location = some y) ∧
      (w.fault.message = "required" → ∃ parent token key fields,
        w.location = parent ++ "/" ++ token ∧ '/' ∉ token.toList ∧
        Pointer.unescape? token.toList = some key.toList ∧
        x.resolve? parent = some (.object fields) ∧ key ∉ Entries.keys fields) := by
  have hstart : x.Supplies "" (some x) := x.resolve?_empty
  obtain ⟨found, hrun, hfound⟩ := finds_inspect hdefault hstart []
  have hviolations : r.violations = found := by
    unfold parse parseField at h
    rw [List.nil_append] at hrun
    rw [← hrun]
    split at h
    · exact nomatch h
    · rename_i hviolations
      rw [hviolations]
      obtain rfl : _ = r := Except.error.inj h
      rfl
  obtain ⟨hvalue, hlacks⟩ := hfound w (hviolations ▸ hw)
  rw [Ne, Fault.message_eq_required_iff]
  exact ⟨hvalue, hlacks⟩

def grid : Validator :=
  object [("a/b", array (object [("c~d", boolean), ("", null)])),
    ("shape", taggedUnion "$type" [("app.square", any)] true)]

/-- The cell is no boolean, its other field is missing, and the type is not a member. -/
def badGrid : Json :=
  .object [("a/b", .array [.object [("c~d", .nat 1)]]),
    ("shape", .object [("$type", .string "app.circle")])]

theorem located_of_parse_sample :
    ∃ r, grid.parse badGrid = .error r ∧
      r.violations.map (fun w => (w.location, w.fault.message)) = [
        ("/a~1b/0/c~0d", "expected boolean, found number"),
        ("/a~1b/0/", "required"),
        ("/shape/$type", "'app.circle' is not a member of this closed union")] ∧
      ∀ w ∈ r.violations, (w.fault.message ≠ "required" → ∃ y, badGrid.resolve? w.location = some y) ∧
        (w.fault.message = "required" → ∃ parent token key fields,
          w.location = parent ++ "/" ++ token ∧ '/' ∉ token.toList ∧
          Pointer.unescape? token.toList = some key.toList ∧
          badGrid.resolve? parent = some (.object fields) ∧ key ∉ Entries.keys fields) := by
  have hleaf : ∀ v : Validator, v.default = none → v.kind.parts = [] → v.All (·.default = none) :=
    fun _ hdefault hparts => .leaf hdefault hparts
  have hcells : (object [("c~d", boolean), ("", null)]).All (·.default = none) := by
    refine .intro rfl fun w hw => ?_
    rcases List.mem_pair.mp hw with rfl | rfl
    · exact hleaf _ rfl rfl
    · exact hleaf _ rfl rfl
  have hdefault : grid.All (·.default = none) := by
    refine .intro rfl fun w hw => ?_
    rcases List.mem_pair.mp hw with rfl | rfl
    · exact .intro rfl (List.forall_mem_singleton.mpr hcells)
    · exact .intro rfl (List.forall_mem_singleton.mpr (hleaf _ rfl rfl))
  obtain ⟨r, hr⟩ : ∃ r, grid.parse badGrid = .error r := ⟨_, rfl⟩
  refine ⟨r, hr, ?_, fun w hw => located_of_parse hdefault hr hw⟩
  obtain rfl := Except.error.inj hr
  decide

end Validator
end Lexicon
