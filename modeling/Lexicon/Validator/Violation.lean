import Lexicon.Json.Printer
import Lexicon.Text.Quoted

/-!
# Violations

A violation is a fault of a value together with the JSON Pointer of the value. `Rejection` is the
list of all violations of a value, in the order in which they were found.
-/

namespace Lexicon

inductive Fault where
  | required
  /-- No value is accepted. -/
  | refused
  | kind (expected found : String)
  | literal (expected found : Json)
  | tooFewItems (min found : Nat)
  | tooManyItems (max found : Nat)
  | tooShort (min found : Nat)
  | tooLong (max found : Nat)
  | unlistedText (found : String) (allowed : List String)
  | mimeType (found : String)
  | fractional (found : Binary64)
  | tooSmall (found minimum : Binary64)
  | tooLarge (found maximum : Binary64)
  | unlistedNumber (found : Binary64) (allowed : List Binary64)
  | noBranch (count : Nat)
  | notAMember (tag : String)

def Fault.message : Fault → String
  | required => "required"
  | refused => "no value is accepted here"
  | kind expected found => s!"expected {expected}, found {found}"
  | literal expected found => s!"expected literal {expected.compact}, found {found.compact}"
  | tooFewItems min found => s!"expected at least {min} items, found {found}"
  | tooManyItems max found => s!"expected at most {max} items, found {found}"
  | tooShort min found => s!"expected at least {min} characters, found {found}"
  | tooLong max found => s!"expected at most {max} characters, found {found}"
  | unlistedText found allowed =>
    s!"'{found}' is not one of {Text.bracketed (allowed.map Text.quoted)}"
  | mimeType found => s!"MIME type '{found}' is not accepted"
  | fractional found => s!"expected integer, found {found.text .plain}"
  | tooSmall found minimum =>
    s!"{found.text .plain} is less than the minimum of {minimum.text .plain}"
  | tooLarge found maximum =>
    s!"{found.text .plain} is greater than the maximum of {maximum.text .plain}"
  | unlistedNumber found allowed =>
    s!"{found.text .plain} is not one of " ++
      Text.bracketed (allowed.map (Binary64.text .listed))
  | noBranch count => s!"value matches none of {count} union branches"
  | notAMember tag => s!"'{tag}' is not a member of this closed union"

namespace Pointer

def escape (token : String) : String :=
  String.ofList (token.toList.flatMap fun c =>
    if c = '~' then ['~', '0'] else if c = '/' then ['~', '1'] else [c])

def child (parent token : String) : String := parent ++ "/" ++ escape token

theorem child_append (a b token : String) : child (a ++ b) token = a ++ child b token := by
  simp [child, String.append_assoc]

end Pointer

structure Violation where
  /-- The JSON Pointer of the value. -/
  location : String
  fault : Fault

def Violation.text (v : Violation) : String :=
  if v.location.isEmpty then s!"  (root): {v.fault.message}"
  else s!"  {v.location}: {v.fault.message}"

structure Rejection where
  violations : List Violation

namespace Rejection

def report (r : Rejection) : String := "\n".intercalate (r.violations.map Violation.text)

def message (r : Rejection) : String := "value rejected:\n" ++ r.report

def hasViolationAt (r : Rejection) (location : String) : Bool :=
  r.violations.any fun v => v.location == location

end Rejection
end Lexicon
