import Lexicon.Binary64.Literal
import Lexicon.Text.Split
import Lexicon.Validator.Basic
import Lexicon.Validator.Violation
import Lexicon.Binary64

/-!
# Parsing values

Parsing runs a validator on a value and gives the value that the validator makes of it: numbers
are brought into their form, missing fields get their defaults, and undeclared keys are dropped.
All violations are reported, each added after those found before it. The output counts only when
there is no violation.
-/

namespace Lexicon

abbrev Inspection (α : Type) := StateM (List Violation) α

namespace Inspection

def reject (location : String) (fault : Fault) : Inspection Unit :=
  modify (· ++ [⟨location, fault⟩])

def rejectIf (condition : Bool) (location : String) (fault : Fault) : Inspection Unit :=
  if condition then reject location fault else pure ()

def check {α : Type} (rule : Option α) (violated : α → Bool) (location : String)
    (fault : α → Fault) : Inspection Unit :=
  match rule with
  | some x => rejectIf (violated x) location (fault x)
  | none => pure ()

/-- The output of an inspection of its own, if it finds no violation. -/
def clean? {α : Type} (inspection : Inspection α) : Option α :=
  match inspection.run [] with
  | (output, []) => some output
  | (_, _ :: _) => none

end Inspection

open Inspection (reject rejectIf check)

/-- The part before the slash has to agree with a pattern that ends in a star. -/
def mimeMatches (pattern mime : String) : Bool :=
  pattern == "*/*" || pattern == mime ||
    match pattern.toList.reverse with
    | '*' :: '/' :: top => (Text.cut? '/' mime.toList).any fun cut => cut.1 == top.reverse
    | _ => false

/-- A whole number in the range of a signed 64-bit word is put out as an integer where integers
are wanted; one above the range by rounding becomes its greatest member. -/
def NumberRules.output (rules : NumberRules) (x : Binary64) : Json :=
  if rules.whole && x.isWhole && decide (Binary64.ofInt (-(Word.size 63 : Int)) ≤ x) &&
      decide (x ≤ Binary64.ofInt (Word.size 63)) then
    .integer (min x.truncate (Word.size 63 - 1))
  else .float x

def NumberRules.valueOf? (rules : NumberRules) : Json → Option Binary64
  | .number n => some n.toBinary64
  | .string s => if rules.coerce then Binary64.ofText? s else none
  | _ => none

def NumberRules.inspect (rules : NumberRules) (location : String) (value : Json) :
    Inspection (Option Json) :=
  match rules.valueOf? value with
  | none => do
    reject location (.kind "number" value.kind)
    return none
  | some x => do
    rejectIf (rules.whole && !x.isWhole) location (.fractional x)
    check rules.minimum (x < ·) location (.tooSmall x)
    check rules.maximum (· < x) location (.tooLarge x)
    check rules.oneOf (!·.any x.same) location (.unlistedNumber x)
    return some (rules.output x)

def StringRules.inspect (rules : StringRules) (location : String) (value : Json) :
    Inspection (Option Json) :=
  match value with
  | .string s => do
    check rules.minLength (s.length < ·) location (.tooShort · s.length)
    check rules.maxLength (· < s.length) location (.tooLong · s.length)
    check rules.oneOf (!·.contains s) location (.unlistedText s)
    rejectIf (!rules.accept.isEmpty && !rules.accept.any (mimeMatches · s)) location (.mimeType s)
    return some value
  | _ => do
    reject location (.kind "string" value.kind)
    return none

/-- An object that lost its discriminator gets it back at its end. -/
def restoreTag (field tag : String) : Option Json → Option Json
  | some (.object fields) =>
    some (.object (if Entries.contains fields field then fields
      else Entries.insert fields field (.string tag)))
  | output => output

mutual

/-- The output for a value, or for a missing one. No output means that the value stays missing. -/
def Validator.inspect (location : String) : Validator → Option Json → Inspection (Option Json)
  | ⟨kind, optional, nullable, default, _⟩, input =>
    match input.or default with
    | some value =>
      if nullable && value.isNull then pure (some .null)
      else kind.inspect location value
    | none =>
      match kind with
      | .any | .unknown => pure none
      | _ => do
        rejectIf (!optional) location .required
        return none

def Kind.inspect (location : String) : Kind Validator → Json → Inspection (Option Json)
  | .any, value | .unknown, value => pure (some value)
  | .never, _ => do
    reject location .refused
    return none
  | .null, value => do
    rejectIf (!value.isNull) location (.kind "null" value.kind)
    return some .null
  | .boolean, value => do
    rejectIf (value.bool?.isNone) location (.kind "boolean" value.kind)
    return some value
  | .string rules, value => rules.inspect location value
  | .number rules, value => rules.inspect location value
  | .literal expected, value => do
    rejectIf (!value.same expected) location (.literal expected value)
    return some value
  | .array items minItems maxItems, .array elements => do
    check minItems (elements.length < ·) location (.tooFewItems · elements.length)
    check maxItems (· < elements.length) location (.tooManyItems · elements.length)
    let outputs ← elements.zipIdx.mapM fun (element, i) =>
      items.inspect (Pointer.child location (toString i)) (some element)
    return some (.array (outputs.map (·.getD .null)))
  | .array _ _ _, value => do
    reject location (.kind "array" value.kind)
    return none
  | .object fields, .object values => do
    return some (.object (← inspectFields location fields values []))
  | .object _, value => do
    reject location (.kind "object" value.kind)
    return none
  | .union branches, value =>
    match firstBranch location branches value with
    | some output => pure output
    | none => do
      reject location (.noBranch branches.length)
      return none
  | .tagged field branches closed, value => do
    let tag := (value.get? field).bind Json.string?
    match tag.bind (inspectTagged location field branches value) with
    | some output => output
    | none =>
      match tag, closed with
      | some tag, true => do
        reject (Pointer.child location field) (.notAMember tag)
        return none
      | _, _ =>
        match firstTagged location branches value with
        | some output => pure output
        | none => do
          reject location (.noBranch branches.length)
          return none

def inspectFields (location : String) :
    List (String × Validator) → Entries Json → Entries Json → Inspection (Entries Json)
  | [], _, outputs => pure outputs
  | (key, v) :: rest, values, outputs => do
    match ← v.inspect (Pointer.child location key) (values.find? key) with
    | none => inspectFields location rest values outputs
    | some output => inspectFields location rest values (outputs.insert key output)

def firstBranch (location : String) : List Validator → Json → Option (Option Json)
  | [], _ => none
  | v :: rest, value =>
    match Inspection.clean? (v.inspect location (some value)) with
    | some output => some output
    | none => firstBranch location rest value

def firstTagged (location : String) : List (String × Validator) → Json → Option (Option Json)
  | [], _ => none
  | (_, v) :: rest, value =>
    match Inspection.clean? (v.inspect location (some value)) with
    | some output => some output
    | none => firstTagged location rest value

def inspectTagged (location field : String) :
    List (String × Validator) → Json → String → Option (Inspection (Option Json))
  | [], _, _ => none
  | (name, v) :: rest, value, tag =>
    if name = tag then some (restoreTag field tag <$> v.inspect location (some value))
    else inspectTagged location field rest value tag

end

namespace Validator

def parseField (v : Validator) (value : Option Json) : Except Rejection (Option Json) :=
  match (v.inspect "" value).run [] with
  | (output, []) => .ok output
  | (_, violations) => .error ⟨violations⟩

def parse (v : Validator) (value : Json) : Except Rejection Json :=
  (v.parseField (some value)).map (·.getD .null)

def accepts (v : Validator) (value : Json) : Bool :=
  match v.parse value with
  | .ok _ => true
  | .error _ => false

end Validator
end Lexicon
