import Lexicon.Compile.Envelope

/-!
# Compiling documents

`Document.compile` compiles the definitions of a document in their order, each at its own name and
in its own scope. `compilePartial` compiles the fields of a single definition at the root.
-/

namespace Lexicon

structure CompiledLexicon where
  id : Option String
  /-- The compiled definitions in their order, less the omitted ones. -/
  defs : Entries Compiled
  metadata : MetadataTable
  /-- The options, with the flags that the compilation has added. -/
  table : OptionTable

namespace Compile

def definitions (ctx : Context) (nsid : String) :
    List (String × Definition) → Compile (Entries Compiled)
  | [] => return []
  | (name, d) :: rest => do
    match ← override? name with
    | some .omit => definitions ctx nsid rest
    | some (.replace v) => return (name, .schema v) :: (← definitions ctx nsid rest)
    | none =>
      let c ← (ctx.enter ⟨nsid, name⟩).compileDefinition d name
      return (name, c) :: (← definitions ctx nsid rest)

end Compile

/-- Compiles a document. It joins the dictionary, unless a document with its id is there, so that
its local references lead to itself. -/
def Document.compile (doc : Document) (options : CompileOptions) :
    Except CompileError CompiledLexicon :=
  let ctx := (Context.ofOptions options).register doc
  match (Compile.definitions ctx (doc.id.getD "") doc.defs).runOn ⟨options.table, []⟩ with
  | (.ok defs, tables) => .ok ⟨doc.id, defs, tables.metadata, tables.options⟩
  | (.error e, _) => .error e

def Definition.ofPartial (tag : String) : Json → Except CompileError Definition
  | .object fields =>
    (ofJson (.object (Entries.insert fields "type" (.string tag)))).mapError .definition
  | .null => (ofJson (.object [("type", .string tag)])).mapError .definition
  | _ => .error (.malformed "" (.notAnObject "non-object"))

def compilePartial (tag : String) (fields : Json) (options : CompileOptions) :
    Except CompileError Compiled := do
  let d ← Definition.ofPartial tag fields
  (((Context.ofOptions options).compileDefinition d "").runOn ⟨options.table, []⟩).1

def compilePartialSchema (tag : String) (fields : Json) (options : CompileOptions) :
    Except CompileError Validator := do
  match ← compilePartial tag fields options with
  | .schema v => return v
  | c => throw (.unsupportedType c.kind)

end Lexicon
