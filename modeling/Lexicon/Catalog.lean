import Lexicon.Context
import Lexicon.File.Form
import Lexicon.File.Tree

/-!
# Catalogs

A catalog holds the documents of folders by their ids, and beside them the files that they were read
from. A folder is loaded with all folders below it, in the order of the names. Loading ends at the
first file that holds no document and at the first id that is taken; the documents before it stay.
-/

namespace Lexicon

structure CatalogEntry where
  source : Path
  document : Document

structure Catalog where
  documents : Entries Document := []
  sources : Entries Path := []

inductive CatalogError where
  | unreadableFolder (path : Path) (cause : FileError)
  | unreadableFile (cause : FileError)
  | notAValue (path : Path) (format : FileFormat)
  | notADocument (path : Path) (cause : DocumentError)
  | duplicate (path : Path) (id : String) (first : Path)

def CatalogError.message : CatalogError → String
  | unreadableFolder path cause =>
    s!"lexicon load error for '{path}': cannot read lexicon directory: {cause.message}"
  | unreadableFile cause => s!"io error: {cause.message}"
  | notAValue path format => s!"lexicon load error for '{path}': invalid {format.name}"
  | notADocument path cause => s!"lexicon load error for '{path}': {cause.message}"
  | duplicate path id first =>
    s!"lexicon load error for '{path}': duplicate lexicon id '{id}' (first seen in {first})"

/-- The message, and then the message of the cause where there is one of its own. -/
def CatalogError.chain (e : CatalogError) : List String :=
  match e with
  | unreadableFile cause => [e.message, cause.message]
  | _ => [e.message]

def Document.ofFile (path : Path) (text : String) : Except CatalogError Document := do
  let format := FileFormat.ofPath path
  match format.parse? text with
  | none => throw (.notAValue path format)
  | some x => (Document.ofJson x).mapError (.notADocument path)

def Document.load (files : Files) (path : Path) : Except CatalogError Document := do
  Document.ofFile path (← (files.text path).mapError .unreadableFile)

namespace Catalog

def holdsDocument (path : Path) : Bool :=
  match path.extension? with
  | some "json" | some "yaml" | some "yml" => true
  | _ => false

/-- What a catalog holds stays when loading more fails. -/
abbrev Load := ExceptT CatalogError (StateM Catalog)

/-- Adds a document. Without an id it is left out. -/
def insert (path : Path) (doc : Document) : Load Unit := do
  if let some id := doc.id then
    match (← get).sources.find? id with
    | some first => throw (.duplicate path id first)
    | none => modify fun c => ⟨c.documents.put id doc, c.sources.put id path⟩

mutual

def addTree (path : Path) : FileTree → Load Unit
  | .folder entries => addEntries path entries
  | .file text => do
    if holdsDocument path then
      insert path (← liftM (Document.ofFile path text))

def addEntries (path : Path) : List (String × FileTree) → Load Unit
  | [] => return
  | (name, tree) :: rest => do
    addTree (path.join name) tree
    addEntries path rest

end

def addFolder (files : Files) (path : Path) : Load Unit := do
  addEntries path (← liftM ((files.folder path).mapError (CatalogError.unreadableFolder path)))

def runOn {α : Type} (c : Catalog) (load : Load α) : Except CatalogError α × Catalog :=
  (ExceptT.run load).run c

def ofFolder (files : Files) (path : Path) : Except CatalogError Catalog :=
  match runOn {} (addFolder files path) with
  | (.ok _, c) => .ok c
  | (.error e, _) => .error e

def dictionary (c : Catalog) : Dictionary := c.documents

def entries (c : Catalog) : Entries CatalogEntry :=
  c.documents.filterMap fun (id, document) =>
    (c.sources.find? id).map fun source => (id, ⟨source, document⟩)

end Catalog
end Lexicon
