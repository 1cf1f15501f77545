import Lexicon.File.Path
import Lexicon.Json.Reader
import Lexicon.Yaml.Value

/-!
# Formats and forms

The extension of a file tells whether it holds YAML; all other files hold JSON. A form says what
kind of value is expected where. Texts that are read in a form are read more strictly than others,
as the fields of a record must not be repeated, and in YAML more liberally: a scalar is text where
text is expected, and a value that is left out is an empty list or record. What does not fit its
form is left to whoever takes the value apart. So are repeated keys, since each of their values has
to fit.
-/

namespace Lexicon

inductive FileFormat where
  | json
  | yaml
  deriving DecidableEq

namespace FileFormat

def ofPath (p : Path) : FileFormat :=
  match p.extension? with
  | some "yaml" | some "yml" => .yaml
  | _ => .json

def name : FileFormat → String
  | json => "JSON"
  | yaml => "YAML"

def parse? (f : FileFormat) (text : String) : Option Json :=
  match f with
  | json => (Json.parse text Json.maxDepth).toOption
  | yaml => Yaml.parse? text

end FileFormat

inductive Form where
  | any
  | string
  | bool
  | choice
  | optional (form : Form)
  | list (form : Form)
  | entries (form : Form)
  /-- A record of some fields, in the order of their declaration. -/
  | record (names : List String) (form : String → Form)

namespace Form

def ofJson? : Form → Json → Option Json
  | .any, x => some x.merged
  | .optional form, x => if x.isNull then some .null else form.ofJson? x
  | .list form, .array elements => (elements.mapM form.ofJson?).map Json.array
  | .entries form, .object fields =>
    (fields.mapM fun e => (form.ofJson? e.2).map (e.1, ·)).map Json.object
  | .record _ form, .object fields => do
    if !decide (Entries.keys fields).Nodup then none
    return .object (← fields.mapM fun e => ((form e.1).ofJson? e.2).map (e.1, ·))
  | .record names form, .array elements => do
    let first ← (names.zip elements).mapM fun (name, x) => (form name).ofJson? x
    return .array (first ++ elements.drop names.length)
  | _, x => some x

def isBlank : Yaml.Node → Bool
  | .scalar _ .plain "" => true
  | _ => false

/-- A plain scalar without a tag stands for nothing if it is left out or null. A tag for null allows
no text but null, and with any other tag a scalar stands for something. -/
def isAbsent? (p : Yaml.Properties) (text : String) : Option Bool :=
  match p.tag with
  | none => some (text.isEmpty || Yaml.isNull text)
  | some tag =>
    if tag = .core "null" then if Yaml.isNull text then some true else none
    else some false

/-- A plain scalar may be a boolean whatever its tag, and a literal one by its tag. -/
def isBoolean (p : Yaml.Properties) (style : Yaml.Style) : Bool :=
  style = .plain || (style = .literal && p.tag = some (.core "bool"))

/-- The name of a choice: a scalar, or a tag on nothing. -/
def choiceName? (p : Yaml.Properties) (style : Yaml.Style) (text : String) : Option String :=
  match p.tag.bind Yaml.Tag.localName? with
  | some name =>
    if style = .plain && (text.isEmpty || Yaml.isNull text) then some name else none
  | none => some text

def ofNode (depth : Nat) : Form → Yaml.Node → Yaml.Resolve Json
  | .any, n => Yaml.valueOf depth n
  | .string, n => return .string (← Yaml.keyText n)
  | .bool, n => do
    match ← Yaml.resolve n with
    | .scalar p style text =>
      if isBoolean p style then return .bool (← liftM (Yaml.bool? text)) else failure
    | _ => failure
  | .choice, n => do
    match ← Yaml.resolve n with
    | .scalar p style text => return .string (← liftM (choiceName? p style text))
    | _ => failure
  | .optional form, n => do
    let n ← Yaml.resolve n
    match n with
    | .scalar p .plain text =>
      if ← liftM (isAbsent? p text) then return .null else form.ofNode depth n
    | _ => form.ofNode depth n
  | .list form, n => do
    match ← Yaml.resolve n, depth with
    | .sequence _ items, depth + 1 => return .array (← items.mapM (form.ofNode depth))
    | n, _ => if isBlank n then return .array [] else failure
  | .entries form, n => do
    match ← Yaml.resolve n, depth with
    | .mapping _ pairs, depth + 1 =>
      return .object (← pairs.mapM fun (key, value) => do
        return (← Yaml.keyText key, ← form.ofNode depth value))
    | n, _ => if isBlank n then return .object [] else failure
  | .record _ form, n => do
    match ← Yaml.resolve n, depth with
    | .mapping _ pairs, depth + 1 =>
      let fields ← pairs.mapM fun (key, value) => do
        let name ← Yaml.keyText key
        return (name, ← (form name).ofNode depth value)
      if (Entries.keys fields).Nodup then return .object fields else failure
    | n, _ => if isBlank n then return .object [] else failure

/-- Reads the value of a text. Without a document, YAML holds a value that is left out. -/
def parse? (form : Form) (format : FileFormat) (text : String) : Option Json :=
  match format with
  | .json => (Json.parseWritten text Json.maxDepth).toOption.bind form.ofJson?
  | .yaml => do
    let n := (← Yaml.node? text).getD .empty
    (form.ofNode Yaml.maxDepth n).run' (.ofNode n)

end Form
end Lexicon
