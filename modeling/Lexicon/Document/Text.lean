import Lexicon.Document.Basic

/-!
# Reading documents from text

The text is read in one pass, so the first fault in the text is the one reported, be it of the
text or of a value's type. A field of the document that is given twice is a fault; values of
unknown fields are only skipped.
-/

namespace Lexicon.Document

def ofText {α : Type} (result : Except TextError α) : Except DocumentError α :=
  result.mapError .text

/-- The nesting left for the values of a document's definitions. -/
def definitionDepth : Nat := Json.maxDepth - 2

/-- Reads a value that is neither an array nor an object; of those the opening bracket is enough
to tell that they do not fit. -/
def scalar {α : Type} (read : Read α) (cs : List Char) : Except DocumentError (α × List Char) :=
  let typed (x : Json) : Except DocumentError α := (read x).mapError .mismatch
  match Json.Reader.skipBlanks cs with
  | '[' :: rest => do return (← typed (.array []), rest)
  | '{' :: rest => do return (← typed (.object []), rest)
  | cs => do
    let (x, rest) ← ofText (Json.Reader.value (Json.Reader.roomFor cs) 0 cs)
    return (← typed x, rest)

def definitions (defs : Entries Definition) (first : Bool) (cs : List Char) :
    Nat → Except DocumentError (Entries Definition × List Char)
  | 0 => .error (.text .malformed)
  | room + 1 => do
    match ← ofText (Json.Reader.nextItem '}' first cs) with
    | .ended rest => return (defs, rest)
    | .item item =>
      let (name, rest) ← ofText (Json.Reader.key item)
      let (x, rest) ← ofText (Json.Reader.value (Json.Reader.roomFor rest) definitionDepth rest)
      let d ← (ReadInner.read Definition.ofJson x.merged).mapError .mismatch
      definitions (defs.insert name d) false rest room

def definitionsField (cs : List Char) : Except DocumentError (Entries Definition × List Char) :=
  match Json.Reader.skipBlanks cs with
  | '{' :: rest => definitions [] true rest (Json.Reader.roomFor cs)
  | cs => scalar (Read.entries (ReadInner.read Definition.ofJson)) cs

def field (d : Document) (name : String) (cs : List Char) :
    Except DocumentError (Document × List Char) :=
  match name with
  | "lexicon" => do
    let (x, rest) ← scalar (Read.optional Read.word32) cs
    return ({ d with lexicon := x }, rest)
  | "id" => do
    let (x, rest) ← scalar (Read.optional Read.string) cs
    return ({ d with id := x }, rest)
  | "revision" => do
    let (x, rest) ← scalar (Read.optional Read.word32) cs
    return ({ d with revision := x }, rest)
  | "description" => do
    let (x, rest) ← scalar (Read.optional Read.string) cs
    return ({ d with description := x }, rest)
  | _ => do
    let (x, rest) ← definitionsField cs
    return ({ d with defs := x }, rest)

/-- Reads fields up to the end of the document; `seen` are the known fields so far. -/
def fieldsFrom (d : Document) (seen : List String) (first : Bool) (cs : List Char) :
    Nat → Except DocumentError (Document × List Char)
  | 0 => .error (.text .malformed)
  | room + 1 => do
    match ← ofText (Json.Reader.nextItem '}' first cs) with
    | .ended rest => return (d, rest)
    | .item item =>
      let (name, rest) ← match item with
        | '"' :: rest => ofText (Json.Reader.stringBody rest)
        | _ => throw (.text .malformed)
      let name := String.ofList name
      if reader.fields.contains name then
        if seen.contains name then throw (.mismatch (.duplicateField name))
        let rest ← ofText (Json.Reader.colon rest)
        let (d, rest) ← field d name rest
        fieldsFrom d (name :: seen) false rest room
      else
        let rest ← ofText (Json.Reader.colon rest)
        let rest ← ofText (Json.Reader.skipValue (Json.Reader.roomFor rest) rest)
        fieldsFrom d seen false rest room

/-- Reads array elements as the values of the named fields. Whatever stands in the place of the
closing bracket after the last field is malformed. -/
def elementsFrom (d : Document) (first : Bool) (cs : List Char) :
    List String → Except DocumentError (Document × List Char)
  | [] =>
    match Json.Reader.skipBlanks cs with
    | [] => .error (.text .unfinished)
    | ']' :: rest => .ok (d, rest)
    | _ => .error (.text .malformed)
  | name :: names => do
    match ← ofText (Json.Reader.nextItem ']' first cs) with
    | .ended rest => return (d, rest)
    | .item item =>
      let (d, rest) ← field d name item
      elementsFrom d false rest names

def read (text : String) : Except DocumentError Document := do
  let cs := Json.Reader.skipBlanks text.toList
  let (d, rest) ← match cs with
    | '{' :: rest => fieldsFrom {} [] true rest (Json.Reader.roomFor cs)
    | '[' :: rest => elementsFrom {} true rest reader.fields
    | _ => scalar reader.ofJson cs
  ofText (Json.Reader.ended rest)
  return d

end Lexicon.Document
