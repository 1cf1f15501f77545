import Lexicon.Yaml.Scalar

/-!
# Tokens of YAML texts

`Token.ofText?` splits a text into tokens. Indentation becomes tokens that begin and end block
collections. Whether a scalar is a key shows only at the colon after it, so the lexer keeps a slot
before every token that may begin a key and fills it when the colon comes. A tag is a string of
bytes, as what it is written as may hold escapes for any bytes: it names a type of the core schema,
or it begins with a mark and is a name of its own if the rest of it is text.
-/

namespace Lexicon.Yaml

abbrev Tag := List UInt8

namespace Tag

def ofString (s : String) : Tag := s.toUTF8.toList

/-- A zero byte ends a tag. -/
def cut (bytes : Tag) : Tag := bytes.takeWhile (· ≠ 0)

def coreStem : Tag := ofString "tag:yaml.org,2002:"

def core (name : String) : Tag := coreStem ++ ofString name

def mark : Tag := ofString "!"

def isMarked (t : Tag) : Bool := mark.isPrefixOf t

def localName? (t : Tag) : Option String :=
  if t.isMarked then String.fromUTF8? ⟨t.tail.toArray⟩ else none

end Tag
inductive Style where
  /-- Without quotes, in a line or in several. -/
  | plain
  | quoted
  /-- As a block of lines that are kept. -/
  | literal
  /-- As a block of lines that are folded. -/
  | folded
  deriving DecidableEq

inductive Token where
  | version (major minor : Nat)
  /-- A shorthand for the beginning of tags. -/
  | tagHandle (handle : String) (stem : Tag)
  | documentStart
  | documentEnd
  | blockSequenceStart
  | blockMappingStart
  | blockEnd
  | flowSequenceStart
  | flowSequenceEnd
  | flowMappingStart
  | flowMappingEnd
  | blockEntry
  | flowEntry
  | key
  | value
  | alias (name : String)
  | anchor (name : String)
  /-- An empty handle stands for a tag that is written in full. -/
  | tag (handle : String) (suffix : Tag)
  | scalar (style : Style) (text : String)
  deriving DecidableEq

structure Place where
  line : Nat := 0
  column : Nat := 0
  offset : Nat := 0

def Place.after (p : Place) (cs : List Char) : Place :=
  cs.foldl (fun p c =>
    let offset := p.offset + c.utf8Size
    if isBreak c then ⟨p.line + 1, 0, offset⟩ else ⟨p.line, p.column + 1, offset⟩) p

structure PossibleKey where
  /-- The slot for the tokens before the key. -/
  slot : Nat
  place : Place
  /-- Nothing but a key can stand here. -/
  required : Bool

structure Lexer where
  rest : List Char
  place : Place := {}
  /-- The columns of the block collections under way, the innermost first. -/
  indents : List Nat := []
  /-- The possible key of the innermost flow collection or, outside them, of the block. -/
  key? : Option PossibleKey := none
  /-- The possible keys around it. There are as many as flow collections. -/
  outer : List (Option PossibleKey) := []
  keyAllowed : Bool := true
  /-- The tokens so far; a slot holds none before it is filled. -/
  slots : Array (List Token) := #[]

namespace Lexer

def inFlow (s : Lexer) : Bool := !s.outer.isEmpty

/-- The number of columns before the contents of the innermost block collection. -/
def inset (s : Lexer) : Nat :=
  match s.indents with
  | [] => 0
  | column :: _ => column + 1

def moveTo (s : Lexer) (rest : List Char) : Lexer :=
  let passed := s.rest.take (s.rest.length - rest.length)
  { s with rest, place := s.place.after passed }

def skip (s : Lexer) (n : Nat) : Lexer :=
  { s with rest := s.rest.drop n, place := s.place.after (s.rest.take n) }

def emit (s : Lexer) (t : Token) : Lexer := { s with slots := s.slots.push [t] }

def dropKey? (s : Lexer) : Option Lexer :=
  if s.key?.any (·.required) then none else some { s with key? := none }

def offerKey? (s : Lexer) : Option Lexer := do
  if s.keyAllowed then
    let s ← s.dropKey?
    let required := !s.inFlow && s.indents.head? = some s.place.column
    return { s with
      key? := some ⟨s.slots.size, s.place, required⟩
      slots := s.slots.push [] }
  else return s

/-- A key does not reach over the end of a line, nor over more than 1024 bytes. -/
def isStale (s : Lexer) (k : PossibleKey) : Bool :=
  k.place.line < s.place.line || k.place.offset + 1024 < s.place.offset

def dropStale? (s : Lexer) : Option Lexer :=
  let stale (k : Option PossibleKey) : Bool := k.any s.isStale
  let fresh (k : Option PossibleKey) : Option PossibleKey := if stale k then none else k
  if (s.key? :: s.outer).any fun k => stale k && k.any (·.required) then none
  else some { s with key? := fresh s.key?, outer := s.outer.map fresh }

def closeBlocks (s : Lexer) (closes : Nat → Bool) : Lexer :=
  if s.inFlow then s
  else
    let ended := s.indents.takeWhile closes
    { s with
      indents := s.indents.dropWhile closes
      slots := s.slots ++ (ended.map fun _ => [Token.blockEnd]).toArray }

/-- A block collection begins at a column, if it is deeper than the one around it. The token goes
to the front of a slot or, where none is given, to the end. -/
def openBlock (s : Lexer) (column : Nat) (slot? : Option Nat) (t : Token) : Lexer :=
  if s.inFlow || s.indents.head?.any (column ≤ ·) then s
  else
    let s := { s with indents := column :: s.indents }
    match slot? with
    | some slot => { s with slots := s.slots.modify slot (t :: ·) }
    | none => s.emit t

def endDocument? (s : Lexer) : Option Lexer := do
  let s ← (s.closeBlocks fun _ => true).dropKey?
  return { s with keyAllowed := false }

def indicator (s : Lexer) (length : Nat) (t : Token) (keyAllowed : Bool) : Lexer :=
  ({ s with keyAllowed }.skip length).emit t

def openFlow? (s : Lexer) (t : Token) : Option Lexer := do
  let s ← s.offerKey?
  return { s with key? := none, outer := s.key? :: s.outer }.indicator 1 t true

def closeFlow? (s : Lexer) (t : Token) : Option Lexer := do
  let s ← s.dropKey?
  let s := match s.outer with
    | [] => s
    | k :: outer => { s with key? := k, outer }
  return s.indicator 1 t false

def flowEntry? (s : Lexer) : Option Lexer := do
  return (← s.dropKey?).indicator 1 .flowEntry true

/-- The start of a block collection at an indicator. It has to stand where a key could. -/
def openAtIndicator? (s : Lexer) (t : Token) : Option Lexer :=
  if s.inFlow then some s
  else if s.keyAllowed then some (s.openBlock s.place.column none t)
  else none

def blockEntry? (s : Lexer) : Option Lexer := do
  return (← (← s.openAtIndicator? .blockSequenceStart).dropKey?).indicator 1 .blockEntry true

def keyMark? (s : Lexer) : Option Lexer := do
  let s ← (← s.openAtIndicator? .blockMappingStart).dropKey?
  return s.indicator 1 .key !s.inFlow

/-- The colon before a value. If a possible key comes before it, that is the key. -/
def valueMark? (s : Lexer) : Option Lexer :=
  match s.key? with
  | some k =>
    let s := { s with key? := none, slots := s.slots.modify k.slot (.key :: ·) }
    let s := s.openBlock k.place.column (some k.slot) .blockMappingStart
    some (s.indicator 1 .value false)
  | none => do
    let s ← s.openAtIndicator? .blockMappingStart
    return s.indicator 1 .value !s.inFlow

def keyToken? (s : Lexer) (read : Option (Token × List Char)) : Option Lexer := do
  let s ← s.offerKey?
  let (t, rest) ← read
  return ({ s with keyAllowed := false }.moveTo rest).emit t

def anchorName? (cs : List Char) : Option (String × List Char) :=
  let name := cs.takeWhile isNameChar
  let rest := cs.dropWhile isNameChar
  let ends := rest.head?.all fun c =>
    isSpace c || ['?', ':', ',', ']', '}', '%', '@', '\x60'].contains c
  if name.isEmpty || !ends then none else some (String.ofList name, rest)

def anchor? (s : Lexer) (make : String → Token) : Option Lexer :=
  s.keyToken? ((anchorName? s.rest.tail).map fun (name, rest) => (make name, rest))

/-- The characters of tags. Flow indicators are among them only where the tag is bracketed. -/
def isTagChar (bracketed : Bool) (c : Char) : Bool :=
  isNameChar c || ";/?:@&=+$.!~*'()".contains c || (bracketed && [',', '[', ']'].contains c)

def escapedByte? (cs : List Char) : Option (UInt8 × List Char) :=
  match cs with
  | '%' :: a :: b :: rest => (hexNumber? [a, b]).map fun byte => (byte.toUInt8, rest)
  | _ => none

/-- The number of bytes of a character that the first of them announces. -/
def announcedWidth? (byte : UInt8) : Option Nat :=
  if byte < 0x80 then some 1
  else if 0xC0 ≤ byte && byte < 0xE0 then some 2
  else if 0xE0 ≤ byte && byte < 0xF0 then some 3
  else if 0xF0 ≤ byte && byte < 0xF8 then some 4
  else none

def escapedTail? : Nat → List Char → Option (Tag × List Char)
  | 0, cs => some ([], cs)
  | count + 1, cs => do
    let (byte, rest) ← escapedByte? cs
    if byte < 0x80 || 0xC0 ≤ byte then none
    let (bytes, rest) ← escapedTail? count rest
    return (byte :: bytes, rest)

/-- The bytes of a character, each written with a percent sign. They have the number that the first
announces, but need not be a character. -/
def escapedBytes? (cs : List Char) : Option (Tag × List Char) := do
  let (byte, rest) ← escapedByte? cs
  let (bytes, rest) ← escapedTail? ((← announcedWidth? byte) - 1) rest
  return (byte :: bytes, rest)

def tagBytesFrom? (bracketed : Bool) : Nat → List Char → Option (Tag × List Char)
  | 0, _ => none
  | room + 1, cs =>
    match cs with
    | [] => some ([], [])
    | '%' :: _ => do
      let (bytes, rest) ← escapedBytes? cs
      let (more, rest) ← tagBytesFrom? bracketed room rest
      return (bytes ++ more, rest)
    | c :: rest =>
      if isTagChar bracketed c then
        (tagBytesFrom? bracketed room rest).map fun (more, rest) => (c.toUInt8 :: more, rest)
      else some ([], cs)

def tagBytes? (bracketed : Bool) (cs : List Char) : Option (Tag × List Char) :=
  tagBytesFrom? bracketed (cs.length + 1) cs

/-- The handle at the start of a tag or a directive: a mark, and a name with another mark after
it. The second mark may be missing, and then it is no handle of its own. -/
def handleOf? (cs : List Char) : Option (List Char × List Char) :=
  match cs with
  | '!' :: after =>
    let name := after.takeWhile isNameChar
    match after.dropWhile isNameChar with
    | '!' :: rest => some ('!' :: name ++ ['!'], rest)
    | rest => some ('!' :: name, rest)
  | _ => none

def tagParts? (cs : List Char) : Option (Token × List Char) :=
  match cs with
  | '!' :: '<' :: after => do
    let (bytes, rest) ← tagBytes? true after
    match bytes, rest with
    | _ :: _, '>' :: rest => return (.tag "" (Tag.cut bytes), rest)
    | _, _ => none
  | _ => do
    let (handle, after) ← handleOf? cs
    let (bytes, rest) ← tagBytes? false after
    if 1 < handle.length && handle.getLast? = some '!' then
      if bytes.isEmpty then none
      else return (.tag (String.ofList handle) (Tag.cut bytes), rest)
    else match Tag.cut (Tag.ofString (String.ofList handle.tail) ++ bytes) with
      | [] => return (.tag "" Tag.mark, rest)
      | suffix => return (.tag "!" suffix, rest)

/-- A tag ends at a space or, inside a flow collection, at a comma. -/
def tag? (s : Lexer) : Option Lexer :=
  s.keyToken? do
    let (t, rest) ← tagParts? s.rest
    if beforeSpace rest || (s.inFlow && rest.head? = some ',') then return (t, rest) else none

def shortNumber? (cs : List Char) : Option (Nat × List Char) :=
  let digits := cs.takeWhile Char.isDigit
  if digits.isEmpty || 9 < digits.length then none
  else some (digits.foldl (fun n c => 10 * n + (c.toNat - '0'.toNat)) 0, cs.dropWhile Char.isDigit)

def versionParts? (cs : List Char) : Option (Token × List Char) := do
  let (major, rest) ← shortNumber? (skipBlanks cs)
  match rest with
  | '.' :: rest =>
    let (minor, rest) ← shortNumber? rest
    return (.version major minor, rest)
  | _ => none

def tagHandleParts? (cs : List Char) : Option (Token × List Char) := do
  let (handle, rest) ← handleOf? (skipBlanks cs)
  if handle.getLast? ≠ some '!' || !rest.head?.any isBlank then none
  let (stem, rest) ← tagBytes? true (skipBlanks rest)
  if stem.isEmpty || !beforeSpace rest then none
  return (.tagHandle (String.ofList handle) (Tag.cut stem), rest)

def directive? (s : Lexer) : Option Lexer := do
  let s ← s.endDocument?
  let cs := s.rest.tail
  let after := cs.dropWhile isNameChar
  if !beforeSpace after then none
  let (t, rest) ← match String.ofList (cs.takeWhile isNameChar) with
    | "YAML" => versionParts? after
    | "TAG" => tagHandleParts? after
    | _ => none
  return (s.moveTo (← restOfLine? rest)).emit t

def documentMark? (s : Lexer) (t : Token) : Option Lexer := do
  return (← s.endDocument?).indicator 3 t false

def quoted? (s : Lexer) (read : List Char → Option (List Char × List Char)) : Option Lexer :=
  s.keyToken? ((read s.rest.tail).map fun (text, rest) =>
    (.scalar .quoted (String.ofList text), rest))

def blockScalar? (s : Lexer) (folded : Bool) : Option Lexer := do
  let s ← s.dropKey?
  let (text, rest) ← block? folded s.inset s.rest.tail
  let style : Style := if folded then .folded else .literal
  return ({ s with keyAllowed := true }.moveTo rest).emit (.scalar style (String.ofList text))

/-- A scalar without quotes. After a line break a key may follow it. -/
def plainScalar? (s : Lexer) : Option Lexer := do
  let p ← plain? s.inFlow s.inset s.rest
  let s ← s.keyToken? (some (.scalar .plain (String.ofList p.text), p.rest))
  return { s with keyAllowed := p.endsLine }

def reserved : List Char :=
  ['-', '?', ':', ',', '[', ']', '{', '}', '#', '&', '*', '!', '|', '>', '\'', '"', '%', '@',
    '\x60']

/-- Three of the indicators begin a plain scalar where no space follows them, two of these only
outside flow collections. -/
def beginsPlain (inFlow : Bool) (c : Char) (rest : List Char) : Bool :=
  if c = '-' then !beforeSpace rest
  else if c = '?' || c = ':' then !inFlow && !beforeSpace rest
  else !isSpace c && !reserved.contains c

def token? (s : Lexer) : Option Lexer :=
  let atStart := s.place.column = 0
  match s.rest with
  | [] => none
  | c :: rest =>
    if atStart && c = '%' then s.directive?
    else if atStart && isDocumentMark s.rest then
      s.documentMark? (if c = '-' then .documentStart else .documentEnd)
    else if c = '[' then s.openFlow? .flowSequenceStart
    else if c = '{' then s.openFlow? .flowMappingStart
    else if c = ']' then s.closeFlow? .flowSequenceEnd
    else if c = '}' then s.closeFlow? .flowMappingEnd
    else if c = ',' then s.flowEntry?
    else if c = '-' && beforeSpace rest then s.blockEntry?
    else if c = '?' && (s.inFlow || beforeSpace rest) then s.keyMark?
    else if c = ':' && (s.inFlow || beforeSpace rest) then s.valueMark?
    else if c = '*' then s.anchor? .alias
    else if c = '&' then s.anchor? .anchor
    else if c = '!' then s.tag?
    else if c = '|' && !s.inFlow then s.blockScalar? false
    else if c = '>' && !s.inFlow then s.blockScalar? true
    else if c = '\'' then s.quoted? single?
    else if c = '"' then s.quoted? double?
    else if beginsPlain s.inFlow c rest then s.plainScalar?
    else none

/-- Skips what stands before a token: spaces, comments and, at the start of a line, a byte order
mark. A tab is no space where a block key may begin. After a line break one may. -/
def skipSpaces : Nat → Lexer → Lexer
  | 0, s => s
  | room + 1, s =>
    match s.rest with
    | [] => s
    | c :: rest =>
      if c = '\uFEFF' && s.place.column = 0 || c = ' ' ||
          c = '\t' && (s.inFlow || !s.keyAllowed) then
        skipSpaces room (s.skip 1)
      else if c = '#' then skipSpaces room (s.moveTo (rest.dropWhile (!isBreak ·)))
      else if isBreak c then
        skipSpaces room { s.skip 1 with keyAllowed := s.keyAllowed || !s.inFlow }
      else s

def run : Nat → Lexer → Option Lexer
  | 0, _ => none
  | room + 1, s => do
    let s ← (s.skipSpaces s.rest.length).dropStale?
    let s := s.closeBlocks (s.place.column < ·)
    if s.rest.isEmpty then s.endDocument? else run room (← s.token?)

end Lexer

def Token.ofText? (text : String) : Option (List Token) := do
  let cs := text.toList
  if !cs.all isAllowed then none
  let s ← Lexer.run (cs.length + 1) { rest := unifyBreaks cs }
  return s.slots.toList.flatten

end Lexicon.Yaml
