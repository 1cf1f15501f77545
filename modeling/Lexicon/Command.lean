import Lexicon.Catalog
import Lexicon.Compile.Export
import Lexicon.Config.File
import Lexicon.Outline
import Lexicon.Validator.Parse

/-!
# Commands

The commands compile a document, validate a value against it, and list its addresses. Each of them
reads files and gives a report, or ends with an error. A report is for the standard output, or for
a file that it names.
-/

namespace Lexicon

structure Settings where
  config? : Option Path := none
  /-- Folders of documents, loaded after those of the configuration. -/
  directories : List Path := []
  noFollowRefs : Bool := false

inductive Command where
  | compile (lexicon : Path) (asSchema : Bool) (output? : Option Path)
  | validate (lexicon : Path) (name : String) (facet? : Option String) (value : Path)
  | paths (lexicon : Path) (asJson : Bool)

structure Report where
  success : Bool := true
  text : String
  target? : Option Path := none

inductive CommandError where
  | lexicon (path : Path) (cause : CatalogError)
  | directory (path : Path) (cause : CatalogError)
  | config (cause : ConfigError)
  | options (cause : OptionsError)
  | uncompiled (path : Path) (cause : CompileError)
  | unknownDefinition (name : String) (known : List String)
  | facet (cause : FacetError)
  | unreadableValue (path : Path) (cause : FileError)
  | notAValue (path : Path) (format : FileFormat)
  | unwritable (path : Path) (cause : FileError)

def CommandError.chain : CommandError → List String
  | lexicon path cause => s!"failed to load lexicon {path}" :: cause.chain
  | directory path cause => s!"failed to load lexicons from {path}" :: cause.chain
  | config cause => cause.chain
  | options cause => cause.chain
  | uncompiled path cause => s!"failed to compile {path}" :: cause.chain
  | unknownDefinition name known =>
    [s!"definition '{name}' not found; available: " ++ ", ".intercalate known]
  | facet cause => [cause.message]
  | unreadableValue path cause => [s!"failed to read instance {path}", cause.message]
  | notAValue path format => [s!"failed to parse instance {path}", s!"invalid {format.name}"]
  | unwritable path cause => [s!"failed to write {path}", cause.message]

def CommandError.message (e : CommandError) : String := ": ".intercalate e.chain

namespace Settings
variable (s : Settings) (files : Files)

def loadConfig : Except CommandError Config :=
  match s.config? with
  | some path => (Config.load files path).mapError .config
  | none => .ok {}

def loadFolders (c : Catalog) : List Path → Except CommandError Catalog
  | [] => .ok c
  | path :: rest =>
    match Catalog.runOn c (Catalog.addFolder files path) with
    | (.ok _, c) => loadFolders c rest
    | (.error e, _) => .error (.directory path e)

def loadDictionary (config : Config) : Except CommandError Dictionary := do
  return (← loadFolders files {} (config.directories ++ s.directories)).dictionary

def compileOptions : Except CommandError CompileOptions := do
  let config ← s.loadConfig files
  let lexicons ← s.loadDictionary files config
  let followRefs := !s.noFollowRefs && config.followRefs
  (config.options lexicons followRefs).mapError .options

end Settings

namespace Command

def loadLexicon (files : Files) (path : Path) : Except CommandError Document :=
  (Document.load files path).mapError (.lexicon path)

def loadCompiled (s : Settings) (files : Files) (path : Path) :
    Except CommandError CompiledLexicon := do
  let doc ← loadLexicon files path
  (doc.compile (← s.compileOptions files)).mapError (.uncompiled path)

def loadValue (files : Files) (path : Path) : Except CommandError Json := do
  let text ← (files.text path).mapError (.unreadableValue path)
  match (FileFormat.ofPath path).parse? text with
  | some x => return x
  | none => throw (.notAValue path (FileFormat.ofPath path))

def selectFacet (c : CompiledLexicon) (name : String) (facet? : Option String) :
    Except CommandError Validator :=
  match c.defs.find? name with
  | none => .error (.unknownDefinition name c.defs.keys)
  | some compiled => (compiled.select facet?).mapError .facet

def run (s : Settings) (files : Files) : Command → Except CommandError Report
  | compile lexicon asSchema target? => do
    let c ← loadCompiled s files lexicon
    return { text := (if asSchema then c.jsonSchema.pretty else c.summary) ++ "\n", target? }
  | validate lexicon name facet? path => do
    let v ← selectFacet (← loadCompiled s files lexicon) name facet?
    match v.parse (← loadValue files path) with
    | .ok output => return { text := s!"OK: {path}\n{output.pretty}\n" }
    | .error r => return { success := false, text := s!"FAIL: {path}\n{r.report}\n" }
  | paths lexicon asJson => do
    let doc ← loadLexicon files lexicon
    let lexicons ←
      if s.noFollowRefs then pure [] else s.loadDictionary files (← s.loadConfig files)
    let entries := doc.outline lexicons
    let text := if asJson then (Outline.toJson entries).pretty else Outline.render entries
    return { text := text ++ "\n" }

end Command
end Lexicon
