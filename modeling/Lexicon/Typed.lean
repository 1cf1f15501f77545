import Lexicon.Mismatch
import Lexicon.Binary64

/-!
# Reading JSON at a type

`Read α` turns a value into an `α` or says why it does not fit. A `FieldReader` describes a record
of named fields: it is read from an object, whose fields are taken in the order of the object, or
from an array that lists the fields in the order of their declaration.
-/

namespace Lexicon

abbrev Read (α : Type) := Json → Except Mismatch α

namespace Read

def string : Read String
  | .string s => .ok s
  | found => .error (.kind found "a string")

def path : Read String
  | .string s => .ok s
  | found => .error (.kind found "path string")

def bool : Read Bool
  | .bool b => .ok b
  | found => .error (.kind found "a boolean")

def integer (name : String) (low high : Int) : Read Int
  | .number (.integer n) => if low ≤ n ∧ n < high then .ok n else .error (.range n name)
  | found => .error (.kind found name)

def word (name : String) (bits : Nat) : Read Nat := fun x => do
  return (← integer name 0 (Word.size bits) x).toNat

def size : Read Nat := word "usize" 64

def word32 : Read Nat := word "u32" 32

def word64 : Read Nat := word "u64" 64

def int64 : Read Int := integer "i64" (-(Word.size 63 : Int)) (Word.size 63)

def optional {α : Type} (read : Read α) : Read (Option α)
  | .null => .ok none
  | x => (read x).map some

def any : Read Json := .ok

def list {α : Type} (read : Read α) : Read (List α)
  | .array elements => elements.mapM read
  | found => .error (.kind found "a sequence")

def entries {α : Type} (read : Read α) : Read (Entries α)
  | .object fields => do
    let pairs ← fields.mapM fun (key, x) => do return (key, ← read x)
    return Entries.ofList pairs
  | found => .error (.kind found "a map")

end Read

structure FieldReader (σ : Type) where
  /-- The words for the record in a mismatch. -/
  name : String
  fields : List String
  /-- The record when no field is given. -/
  blank : σ
  read : σ → String → Json → Except Mismatch σ

namespace FieldReader

variable {σ : Type}

/-- Reads the fields of an object in their order. -/
def ofFields (r : FieldReader σ) (fields : Entries Json) : Except Mismatch σ :=
  fields.foldlM (fun acc e => r.read acc e.1 e.2) r.blank

/-- Reads the elements of an array as the first fields of the record. -/
def ofElements (r : FieldReader σ) (elements : List Json) : Except Mismatch σ := do
  let record ← r.ofFields (r.fields.zip elements)
  if r.fields.length < elements.length then throw (.tooLong elements.length)
  return record

def ofJson (r : FieldReader σ) : Read σ
  | .object fields => r.ofFields fields
  | .array elements => r.ofElements elements
  | found => .error (.kind found r.name)

end FieldReader
end Lexicon
