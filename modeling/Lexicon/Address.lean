import Lexicon.Text.Split
import Lexicon.Binary64

/-!
# Addresses

The address of a node is the dotted path to it from the name of a top-level definition:
`main.tags.__array__`, `main.embed.__union__.1`. `ofSegments` writes a list of steps as an address
and `segments` reads the steps back.
-/

namespace Lexicon

/-- The dotted path of a node. -/
abbrev Address := String

namespace Address

def elementMark : String := "__array__"

/-- The part that stands for the branches of a union; the position of a branch follows it. -/
def branchMark : String := "__union__"

/-- The address of a property. At the root it is the key alone. -/
def property (parent : Address) (key : String) : Address :=
  if parent.isEmpty then key else parent ++ "." ++ key

def element (parent : Address) : Address := parent.property elementMark

def branch (parent : Address) (index : Nat) : Address :=
  parent.property (branchMark ++ "." ++ toString index)

inductive Segment where
  | key (name : String)
  | element
  | branch (index : Nat)
  deriving DecidableEq, Repr

def Segment.text : Segment → String
  | .key name => name
  | .element => elementMark
  | .branch index => branchMark ++ "." ++ toString index

def step (parent : Address) : Segment → Address
  | .key name => parent.property name
  | .element => parent.element
  | .branch index => parent.branch index

def ofSegments (segments : List Segment) : Address := segments.foldl step ""

/-- A 64-bit number in decimal digits, with an optional plus sign. -/
def index? (part : List Char) : Option Nat :=
  let digits := match part with
    | '+' :: rest => rest
    | _ => part
  if digits ≠ [] ∧ digits.all Char.isDigit then
    let n := digits.foldl (fun acc c => acc * 10 + (c.toNat - '0'.toNat)) 0
    if n < Word.size 64 then some n else none
  else none

def ofPart (part : List Char) : Segment :=
  if part = elementMark.toList then .element else .key (String.ofList part)

/-- The steps that the parts of an address stand for. A branch mark and the number after it are
one step; a branch mark without a number is an ordinary key. -/
def ofParts : List (List Char) → List Segment
  | [] => []
  | [part] => [ofPart part]
  | part :: next :: rest =>
    if part = branchMark.toList then
      match index? next with
      | some index => .branch index :: ofParts rest
      | none => ofPart part :: ofParts (next :: rest)
    else ofPart part :: ofParts (next :: rest)

def segments (address : Address) : List Segment :=
  if address.isEmpty then [] else ofParts (Text.split '.' address.toList)

@[simp] theorem property_empty (key : String) : property "" key = key := rfl

theorem property_of_ne {parent : Address} (h : parent ≠ "") (key : String) :
    parent.property key = parent ++ "." ++ key := by
  simp [property, h]

end Address
end Lexicon
