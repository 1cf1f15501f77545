import Lexicon.Address
import Lexicon.Validator.Basic

/-!
# Options by address

The caller steers a compilation address by address: a node can be left out or replaced, be made
mandatory, carry metadata, and get more fields. Compilation adds to the table that a node is
mandatory where its object says so.
-/

namespace Lexicon

inductive Override where
  | omit
  | replace (v : Validator)

structure PathOptions where
  override? : Option Override := none
  required? : Option Bool := none
  metadata? : Option (Entries Json) := none
  additional : List (String × Validator) := []

structure OptionTable where
  entries : Entries PathOptions := []

namespace OptionTable

def get? (t : OptionTable) (a : Address) : Option PathOptions := t.entries.find? a

def insert (t : OptionTable) (a : Address) (o : PathOptions) : OptionTable := ⟨t.entries.put a o⟩

def ofList (pairs : List (Address × PathOptions)) : OptionTable :=
  pairs.foldl (fun t e => t.insert e.1 e.2) {}

def getD (t : OptionTable) (a : Address) : PathOptions := (t.get? a).getD {}

def touch (t : OptionTable) (a : Address) : OptionTable := t.insert a (t.getD a)

def override? (t : OptionTable) (a : Address) : Option Override := (t.getD a).override?

def required? (t : OptionTable) (a : Address) : Option Bool := (t.getD a).required?

/-- Makes the node at an address mandatory, unless it was made optional. -/
def markRequired (t : OptionTable) (a : Address) : OptionTable :=
  let o := t.getD a
  t.insert a (if o.required? = some false then o else { o with required? := some true })

theorem get?_insert (t : OptionTable) (a b : Address) (o : PathOptions) :
    (t.insert a o).get? b = if a = b then some o else t.get? b :=
  Entries.find?_put t.entries a b o

end OptionTable

inductive CyclePolicy where
  | fail
  /-- The reference accepts every value. -/
  | permissive
  deriving DecidableEq, Repr, Inhabited

inductive ConstPolicy where
  /-- It is the default; other values are accepted too. -/
  | default
  /-- It is the default and the only value. -/
  | enforce
  deriving DecidableEq, Repr, Inhabited

end Lexicon
