import Lexicon.Definition.Reader
import Lexicon.Json.Reader

/-!
# Documents

A document names its definitions. It is read from a JSON value, or in one pass from text: then an
error says whether the text breaks off, is not JSON, or holds a value of the wrong type.
-/

namespace Lexicon

structure Document where
  lexicon : Option Nat := none
  id : Option String := none
  revision : Option Nat := none
  description : Option String := none
  defs : Entries Definition := []

instance : Inhabited Document := ⟨{}⟩

inductive DocumentError where
  | mismatch (reason : Mismatch)
  | text (reason : TextError)

def DocumentError.message : DocumentError → String
  | .mismatch reason => "invalid lexicon document: " ++ reason.message
  | .text _ => "invalid lexicon document"

namespace Document

def reader : FieldReader Document where
  name := "struct LexiconDoc"
  fields := ["lexicon", "id", "revision", "description", "defs"]
  blank := {}
  read d key x :=
    match key with
    | "lexicon" => return { d with lexicon := ← Read.optional Read.word32 x }
    | "id" => return { d with id := ← Read.optional Read.string x }
    | "revision" => return { d with revision := ← Read.optional Read.word32 x }
    | "description" => return { d with description := ← Read.optional Read.string x }
    | "defs" => return { d with defs := ← Read.entries (ReadInner.read Definition.ofJson) x }
    | _ => return d

def ofJson (x : Json) : Except DocumentError Document :=
  (reader.ofJson x).mapError .mismatch

def toJson (d : Document) : Json :=
  .object (Json.nat? "lexicon" d.lexicon ++ Json.text? "id" d.id ++
    Json.nat? "revision" d.revision ++ Json.text? "description" d.description ++
    [("defs", .object (d.defs.mapValues Definition.toJson))])

def definition? (d : Document) (name : String) : Option Definition := d.defs.find? name

def weight (d : Document) : Nat := Definition.weightProperties d.defs

end Document
end Lexicon
