import Lexicon.Context

/-!
# The tables of a compilation

A compilation reads and extends two tables by address: the options, to which it adds that nodes
are mandatory, and the metadata, which collects what is known about nodes beside their validators.
What has been written stays when the compilation fails.
-/

namespace Lexicon

abbrev MetadataTable := Entries (Entries Json)

structure Tables where
  options : OptionTable := {}
  metadata : MetadataTable := []

abbrev Compile (α : Type) := ExceptT CompileError (StateM Tables) α

namespace Compile

def override? (a : Address) : Compile (Option Override) :=
  return (← get).options.override? a

def markRequired (a : Address) : Compile Unit :=
  modify fun t => { t with options := t.options.markRequired a }

/-- Makes a node mandatory, unless something else stands in its place. -/
def requireNode (a : Address) : Compile Unit := do
  if (← override? a).isNone then markRequired a

/-- Adds metadata to an address. Later values of a key replace earlier ones. -/
def recordMetadata (a : Address) (entries : Entries Json) : Compile Unit :=
  modify fun t =>
    let before := (t.metadata.find? a).getD []
    { t with metadata := t.metadata.put a (before.insertAll entries) }

def runOn {α : Type} (tables : Tables) (c : Compile α) : Except CompileError α × Tables :=
  (ExceptT.run c).run tables

end Compile

/-- Attaches a description, unless there is one, and a default. -/
def Validator.annotate (v : Validator) (description : Option String) (default : Option Json) :
    Validator :=
  { v with description := v.description.or description, default := default.or v.default }

/-- Finishes the validator of a node: it is annotated, it is optional unless the options make it
mandatory, and the caller's metadata are recorded. -/
def Compile.extend (v : Validator) (description : Option String) (default : Option Json)
    (a : Address) : Compile Validator := do
  let options := (← get).options.getD a
  if let some metadata := options.metadata? then
    recordMetadata a metadata
  return { v.annotate description default with optional := options.required? != some true }

end Lexicon
