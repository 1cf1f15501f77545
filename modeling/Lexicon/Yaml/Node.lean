import Lexicon.Entries
import Lexicon.Yaml.Token

/-!
# Nodes of YAML documents

`Node.ofTokens?` builds the node of a document from tokens. A text holds at most one document, and
an empty text holds none. Anchors are numbered, and an alias stands for the node with its number.
-/

namespace Lexicon.Yaml

structure Properties where
  tag : Option Tag := none
  anchor : Option Nat := none

inductive Node where
  | scalar (properties : Properties) (style : Style) (text : String)
  | sequence (properties : Properties) (items : List Node)
  | mapping (properties : Properties) (pairs : List (Node × Node))
  | alias (anchor : Nat)

namespace Node

def empty : Node := .scalar {} .plain ""

structure Reading where
  tokens : List Token
  anchors : Entries Nat := []

abbrev Parse := StateT Reading Option

def peek : Parse (Option Token) := return (← get).tokens.head?

def advance : Parse Unit := modify fun s => { s with tokens := s.tokens.tail }

/-- An anchor is numbered by the names before it. -/
def setAnchor (name : String) : Parse Nat := do
  let number := (← get).anchors.length
  modify fun s => { s with anchors := s.anchors.insert name number }
  return number

/-- A tag with its handle replaced by what it is short for. -/
def fullTag? (handles : Entries Tag) (handle : String) (suffix : Tag) : Option Tag :=
  if handle.isEmpty then some suffix else (handles.find? handle).map (· ++ suffix)

def anchor? : Parse (Option Nat) := do
  match ← peek with
  | some (.anchor name) =>
    advance
    return some (← setAnchor name)
  | _ => return none

def tag? (handles : Entries Tag) : Parse (Option Tag) := do
  match ← peek with
  | some (.tag handle suffix) =>
    advance
    return some (← liftM (fullTag? handles handle suffix))
  | _ => return none

def properties (handles : Entries Tag) : Parse Properties := do
  match ← anchor? with
  | some number => return ⟨← tag? handles, some number⟩
  | none =>
    match ← tag? handles with
    | some tag => return ⟨some tag, ← anchor?⟩
    | none => return {}

def nextIs (tokens : List Token) : Parse Bool := return (← peek).any tokens.contains

def expect (t : Token) : Parse Unit := do
  if ← nextIs [t] then advance else failure

section
variable (handles : Entries Tag)

mutual

/-- Reads a node. Block collections are accepted only inside blocks, and a block sequence that is
not indented only as the value of a mapping. -/
def node (inBlock unindented : Bool) : Nat → Parse Node
  | 0 => failure
  | room + 1 => do
    if let some (.alias name) ← peek then
      advance
      return .alias (← liftM ((← get).anchors.find? name))
    let p ← properties handles
    match ← peek with
    | some (.scalar style text) =>
      advance
      return .scalar p style text
    | some .flowSequenceStart =>
      advance
      return .sequence p (← flowItems true room)
    | some .flowMappingStart =>
      advance
      return .mapping p (← flowPairs true room)
    | some .blockSequenceStart =>
      if !inBlock then failure
      advance
      return .sequence p (← blockItems room)
    | some .blockMappingStart =>
      if !inBlock then failure
      advance
      return .mapping p (← blockPairs room)
    | some .blockEntry =>
      if unindented then return .sequence p (← unindentedItems room)
      else if p.tag.isSome || p.anchor.isSome then return .scalar p .plain ""
      else failure
    | _ => if p.tag.isSome || p.anchor.isSome then return .scalar p .plain "" else failure

def nodeOrEmpty (before : List Token) (inBlock unindented : Bool) : Nat → Parse Node
  | 0 => failure
  | room + 1 => do
    if ← nextIs before then return .empty else node inBlock unindented room

def blockItems : Nat → Parse (List Node)
  | 0 => failure
  | room + 1 => do
    if ← nextIs [.blockEnd] then
      advance
      return []
    else
      expect .blockEntry
      let item ← nodeOrEmpty [.blockEntry, .blockEnd] true false room
      return item :: (← blockItems room)

/-- The rest of a block sequence that is not indented; no token ends it. -/
def unindentedItems : Nat → Parse (List Node)
  | 0 => failure
  | room + 1 => do
    if ← nextIs [.blockEntry] then
      advance
      let item ← nodeOrEmpty [.blockEntry, .key, .value, .blockEnd] true false room
      return item :: (← unindentedItems room)
    else return []

def valueOrEmpty (before : List Token) (inBlock : Bool) : Nat → Parse Node
  | 0 => failure
  | room + 1 => do
    if ← nextIs [.value] then
      advance
      nodeOrEmpty before inBlock inBlock room
    else return .empty

def blockPairs : Nat → Parse (List (Node × Node))
  | 0 => failure
  | room + 1 => do
    if ← nextIs [.blockEnd] then
      advance
      return []
    else
      let ending := [.key, .value, .blockEnd]
      expect .key
      let key ← nodeOrEmpty ending true true room
      let value ← valueOrEmpty ending true room
      return (key, value) :: (← blockPairs room)

/-- The rest of a flow sequence. A pair in it is a mapping of its own; the token after a key that is
left out goes with it. -/
def flowItems (first : Bool) : Nat → Parse (List Node)
  | 0 => failure
  | room + 1 => do
    if !first && !(← nextIs [.flowSequenceEnd]) then expect .flowEntry
    if ← nextIs [.flowSequenceEnd] then
      advance
      return []
    else if ← nextIs [.key] then
      advance
      let key ←
        if ← nextIs [.value, .flowEntry, .flowSequenceEnd] then
          advance
          pure .empty
        else node false false room
      let value ← valueOrEmpty [.flowEntry, .flowSequenceEnd] false room
      return .mapping {} [(key, value)] :: (← flowItems false room)
    else
      let item ← node false false room
      return item :: (← flowItems false room)

/-- The rest of a flow mapping. A node that is not marked as a key has no value. -/
def flowPairs (first : Bool) : Nat → Parse (List (Node × Node))
  | 0 => failure
  | room + 1 => do
    if !first && !(← nextIs [.flowMappingEnd]) then expect .flowEntry
    if ← nextIs [.flowMappingEnd] then
      advance
      return []
    else if ← nextIs [.key] then
      advance
      let key ← nodeOrEmpty [.value, .flowEntry, .flowMappingEnd] false false room
      let value ← valueOrEmpty [.flowEntry, .flowMappingEnd] false room
      return (key, value) :: (← flowPairs false room)
    else
      let key ← node false false room
      return (key, .empty) :: (← flowPairs false room)

end
end

def standardHandles : Entries Tag := [("!", Tag.mark), ("!!", Tag.coreStem)]

/-- The directives before a document: at most one version, 1.1 or 1.2, and no handle twice. -/
def directives (versioned : Bool) (handles : Entries Tag) :
    List Token → Option (Entries Tag × List Token)
  | .version major minor :: rest =>
    if versioned || major ≠ 1 || (minor ≠ 1 && minor ≠ 2) then none
    else directives true handles rest
  | .tagHandle handle stem :: rest =>
    if handles.contains handle then none
    else directives versioned (handles ++ [(handle, stem)]) rest
  | tokens => some (handles, tokens)

/-- Room for every call: a token is taken at least by every third of the calls that nest. -/
def roomFor (tokens : List Token) : Nat := 3 * tokens.length + 3

def content? (handles : Entries Tag) (tokens : List Token) : Option Node := do
  let (node, reading) ← (node handles true false (roomFor tokens)).run { tokens }
  if (reading.tokens.dropWhile (· = .documentEnd)).isEmpty then return node else none

/-- The node of a document, if there is one. A document that is marked as such may be empty. -/
def ofTokens? (tokens : List Token) : Option (Option Node) :=
  match tokens with
  | [] => some none
  | .documentStart :: _ | .version _ _ :: _ | .tagHandle _ _ :: _ => do
    let (handles, rest) ← directives false [] tokens
    match rest with
    | .documentStart :: rest =>
      if (rest.dropWhile (· = .documentEnd)).isEmpty then return some empty
      else return some (← content? (handles ++ standardHandles) rest)
    | _ => none
  | _ => (content? standardHandles tokens).map some

end Node
end Lexicon.Yaml
