import Lexicon.Binary64.Literal
import Lexicon.Json.Basic
import Lexicon.Binary64
import Lexicon.Yaml.Node

/-!
# Values of YAML texts

`Yaml.parse?` reads the value of a text by the core schema of YAML 1.2: plain scalars may be null,
booleans and numbers, and all others are strings. Values are those of JSON. The keys of mappings
are taken as they are written, and numbers that are not finite become null.
-/

namespace Lexicon.Yaml

def isNull (text : String) : Bool := ["null", "Null", "NULL", "~"].contains text

def bool? (text : String) : Option Bool :=
  if ["true", "True", "TRUE"].contains text then some true
  else if ["false", "False", "FALSE"].contains text then some false
  else none

def digitOf? (base : Nat) (c : Char) : Option Nat := (hexDigit? c).filter (· < base)

def digitsOf? (base : Nat) (cs : List Char) : Option Nat :=
  if cs.isEmpty then none else cs.foldlM (fun n c => (digitOf? base c).map (base * n + ·)) 0

def hasLeadingZero (cs : List Char) : Bool := 1 < cs.length && cs.head? = some '0'

def magnitude? (cs : List Char) : Option Nat :=
  match cs with
  | '0' :: 'x' :: digits => digitsOf? 16 digits
  | '0' :: 'o' :: digits => digitsOf? 8 digits
  | '0' :: 'b' :: digits => digitsOf? 2 digits
  | _ => if hasLeadingZero cs then none else digitsOf? 10 cs

def integer? (cs : List Char) : Option Int :=
  match cs with
  | '-' :: rest => (magnitude? rest).map fun n => -(n : Int)
  | '+' :: rest => (magnitude? rest).map Int.ofNat
  | _ => (magnitude? cs).map Int.ofNat

def withoutSign (cs : List Char) : List Char :=
  match cs with
  | '-' :: rest | '+' :: rest => rest
  | _ => cs

def isNonFinite (text : String) : Bool :=
  [".inf", ".Inf", ".INF", "+.inf", "+.Inf", "+.INF", "-.inf", "-.Inf", "-.INF", ".nan", ".NaN",
    ".NAN"].contains text

/-- A floating-point number; one that is not finite gives null. -/
def float? (text : String) : Option Json :=
  if isNonFinite text then some .null
  else (Binary64.ofLiteral? text.toList).map Json.float

/-- What an integer gives: nothing if it fits no word of 64 bits but one of 128. Larger ones are
not taken for integers. -/
inductive IntegerRead where
  | value (n : Int)
  | tooLarge
  | other

def readInteger (text : String) : IntegerRead :=
  match integer? text.toList with
  | none => .other
  | some n =>
    if Word.FitsSigned 64 n ∨ Word.Fits 64 n then .value n
    else if Word.FitsSigned 128 n ∨ Word.Fits 128 n then .tooLarge
    else .other

/-- The value of a plain scalar without a tag. There is none for integers that are too large. -/
def plainValue? (text : String) : Option Json :=
  if text.isEmpty || isNull text then some .null
  else match bool? text with
    | some b => some (.bool b)
    | none =>
      match readInteger text with
      | .value n => some (.integer n)
      | .tooLarge => none
      | .other =>
        let digits := withoutSign text.toList
        if hasLeadingZero digits && digits.all Char.isDigit then some (.string text)
        else some ((float? text).getD (.string text))

/-- A tag that is a name of its own has no meaning here, and what carries one is refused. -/
def isForeign (tag : Option Tag) : Bool := tag.any fun t => t.localName?.isSome

/-- The value of a scalar. A tag of the core schema decides how it is read. Any other makes it text,
but for a plain scalar whose tag begins with a mark. -/
def scalarValue? (p : Properties) (style : Style) (text : String) : Option Json :=
  match p.tag with
  | none => if style = .plain then plainValue? text else some (.string text)
  | some tag =>
    if isForeign p.tag then none
    else if tag = .core "bool" then (bool? text).map Json.bool
    else if tag = .core "int" then
      match readInteger text with
      | .value n => some (.integer n)
      | _ => none
    else if tag = .core "float" then float? text
    else if tag = .core "null" then if isNull text then some .null else none
    else if tag.isMarked && style = .plain then plainValue? text
    else some (.string text)

namespace Node

mutual

/-- The number of steps that it takes to write a node down: one for a scalar or an alias, and two
for a collection besides those of its parts. -/
def size : Node → Nat
  | .scalar _ _ _ | .alias _ => 1
  | .sequence _ items => 2 + sizeItems items
  | .mapping _ pairs => 2 + sizePairs pairs

def sizeItems : List Node → Nat
  | [] => 0
  | item :: rest => item.size + sizeItems rest

def sizePairs : List (Node × Node) → Nat
  | [] => 0
  | (key, value) :: rest => key.size + value.size + sizePairs rest

end

mutual

def anchored : Node → List (Nat × Node)
  | .scalar p style text => withAnchor p (.scalar p style text)
  | .sequence p items => withAnchor p (.sequence p items) ++ anchoredItems items
  | .mapping p pairs => withAnchor p (.mapping p pairs) ++ anchoredPairs pairs
  | .alias _ => []

def anchoredItems : List Node → List (Nat × Node)
  | [] => []
  | item :: rest => item.anchored ++ anchoredItems rest

def anchoredPairs : List (Node × Node) → List (Nat × Node)
  | [] => []
  | (key, value) :: rest => key.anchored ++ value.anchored ++ anchoredPairs rest

def withAnchor (p : Properties) (n : Node) : List (Nat × Node) :=
  match p.anchor with
  | some number => [(number, n)]
  | none => []

end

end Node

/-- What aliases stand for, and how many may still be replaced. -/
structure Aliases where
  /-- The last node with a number comes first. -/
  nodes : List (Nat × Node)
  remaining : Nat

abbrev Resolve := StateT Aliases Option

/-- The aliases of a document. Replacing more than a hundred for each step of the document is
refused. -/
def Aliases.ofNode (n : Node) : Aliases := ⟨n.anchored.reverse, 100 * n.size⟩

def resolve (n : Node) : Resolve Node := do
  match n with
  | .alias number =>
    let aliases ← get
    match aliases.remaining, aliases.nodes.lookup number with
    | remaining + 1, some target =>
      set { aliases with remaining }
      return target
    | _, _ => failure
  | n => return n

/-- The key of a mapping is a scalar; its text is taken as it is written. -/
def keyText (n : Node) : Resolve String := do
  match ← resolve n with
  | .scalar _ _ text => return text
  | _ => failure

/-- The value of a node with at most `depth` levels of collections. A key that is repeated keeps
its first position and its last value. -/
def valueOf : Nat → Node → Resolve Json
  | depth, n => do
    match ← resolve n, depth with
    | .scalar p style text, _ => liftM (scalarValue? p style text)
    | .sequence p items, depth + 1 =>
      if isForeign p.tag then failure
      return .array (← items.mapM (valueOf depth))
    | .mapping p pairs, depth + 1 =>
      if isForeign p.tag then failure
      let fields ← pairs.mapM fun (key, value) => do return (← keyText key, ← valueOf depth value)
      return .ofEntries fields
    | _, _ => failure

def maxDepth : Nat := 128

def node? (text : String) : Option (Option Node) := (Token.ofText? text).bind Node.ofTokens?

/-- The value of a text. Without a document it is null. -/
def parse? (text : String) : Option Json := do
  match ← node? text with
  | none => return .null
  | some n => (valueOf maxDepth n).run' (.ofNode n)

end Lexicon.Yaml
