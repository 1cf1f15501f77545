import Lexicon.Binary64
import Lexicon.Entries

/-!
# JSON values

Objects are key-value lists in the order of the text. Integers and doubles are different kinds of
number. `Json.same` is the equality of values: it ignores the order of keys and the sign of zero.
-/

namespace Lexicon

/-- A JSON number: an integer kept exactly, or a finite double. -/
inductive Number where
  | integer (n : Int)
  | float (x : Binary64)
  deriving DecidableEq, Repr, Inhabited

namespace Number

def toBinary64 : Number → Binary64
  | .integer n => .ofInt n
  | .float x => x

/-- An integer is never the same number as a double. -/
def same : Number → Number → Bool
  | .integer m, .integer n => m == n
  | .float x, .float y => x.same y
  | _, _ => false

end Number

inductive Json where
  | null
  | bool (b : Bool)
  | number (n : Number)
  | string (s : String)
  | array (elements : List Json)
  | object (fields : List (String × Json))
  deriving Repr, Inhabited

namespace Json

def kind : Json → String
  | null => "null"
  | bool _ => "boolean"
  | number _ => "number"
  | string _ => "string"
  | array _ => "array"
  | object _ => "object"

def integer (n : Int) : Json := number (.integer n)

def nat (n : Nat) : Json := integer n

def float (x : Binary64) : Json := number (.float x)

def strings (xs : List String) : Json := array (xs.map string)

/-- An object whose repeated keys keep their first position and their last value. -/
def ofEntries (fields : Entries Json) : Json := object (Entries.ofList fields)

def field? (key : String) (x : Option Json) : Entries Json :=
  match x with
  | none => []
  | some x => [(key, x)]

def text? (key : String) (s : Option String) : Entries Json := field? key (s.map string)

def nat? (key : String) (n : Option Nat) : Entries Json := field? key (n.map nat)

def int? (key : String) (n : Option Int) : Entries Json := field? key (n.map integer)

def texts? (key : String) (xs : List String) : Entries Json :=
  if xs.isEmpty then [] else [(key, strings xs)]

def isNull : Json → Bool
  | null => true
  | _ => false

def string? : Json → Option String
  | string s => some s
  | _ => none

def bool? : Json → Option Bool
  | bool b => some b
  | _ => none

def array? : Json → Option (List Json)
  | array elements => some elements
  | _ => none

def object? : Json → Option (Entries Json)
  | object fields => some fields
  | _ => none

def get? : Json → String → Option Json
  | object fields, key => Entries.find? fields key
  | _, _ => none

mutual

/-- Equality of values: objects agree on their keys, in any order. -/
def same : Json → Json → Bool
  | null, null => true
  | bool a, bool b => a == b
  | number m, number n => m.same n
  | string s, string t => s == t
  | array xs, array ys => sameElements xs ys
  | object fields, object others =>
    fields.length == others.length && sameFields fields others
  | _, _ => false

def sameElements : List Json → List Json → Bool
  | [], [] => true
  | x :: xs, y :: ys => x.same y && sameElements xs ys
  | _, _ => false

def sameFields : List (String × Json) → Entries Json → Bool
  | [], _ => true
  | (key, x) :: rest, others =>
    (match others.find? key with
      | some y => x.same y
      | none => false) && sameFields rest others

end

mutual

def weight : Json → Nat
  | array elements => 1 + weightElements elements
  | object fields => 1 + weightFields fields
  | _ => 1

def weightElements : List Json → Nat
  | [] => 0
  | x :: rest => x.weight + weightElements rest

def weightFields : List (String × Json) → Nat
  | [] => 0
  | (_, x) :: rest => x.weight + weightFields rest

end

mutual

/-- The value with each key of an object once: at its first position, with its last value. -/
def merged : Json → Json
  | array elements => array (mergedElements elements)
  | object fields => object (Entries.ofList (mergedFields fields))
  | x => x

def mergedElements : List Json → List Json
  | [] => []
  | x :: rest => x.merged :: mergedElements rest

def mergedFields : List (String × Json) → List (String × Json)
  | [] => []
  | (key, x) :: rest => (key, x.merged) :: mergedFields rest

end

theorem get?_object (fields : List (String × Json)) (key : String) :
    (object fields).get? key = Entries.find? fields key := rfl

end Json
end Lexicon
