import Lexicon.Entries
import Lexicon.File.Path

/-!
# Trees of files

A tree is a file with its text or a folder with its entries, in the order of their names. A listing
holds files by their paths; a folder of it is the tree of all files below a path.
-/

namespace Lexicon

inductive FileTree where
  | file (text : String)
  | folder (entries : List (String × FileTree))

instance : Inhabited FileTree := ⟨.folder []⟩

inductive FileError where
  | missing
  | notFolder
  | isFolder
  | nameTooLong
  /-- A path has a zero character. -/
  | zeroInName
  /-- Any other cause, in the words of the system. -/
  | system (message : String)

def FileError.message : FileError → String
  | missing => "No such file or directory (os error 2)"
  | notFolder => "Not a directory (os error 20)"
  | isFolder => "Is a directory (os error 21)"
  | nameTooLong => "File name too long (os error 36)"
  | zeroInName => "file name contained an unexpected NUL byte"
  | system message => message

abbrev Files := Path → Except FileError FileTree

def Files.text (files : Files) (p : Path) : Except FileError String := do
  match ← files p with
  | .file text => return text
  | .folder _ => throw .isFolder

def Files.folder (files : Files) (p : Path) : Except FileError (List (String × FileTree)) := do
  match ← files p with
  | .folder entries => return entries
  | .file _ => throw .notFolder

namespace FileTree

/-- A place in a tree: what stands there, and the folders around it with the names that lead on from
them, the innermost first. -/
structure Position where
  here : FileTree
  around : List (FileTree × String) := []

namespace Position

/-- Follows a part of a path. Two dots lead back to the folder around the one at hand; around the
outermost folder there is nothing. -/
def enter (p : Position) (part : List Char) : Except FileError Position :=
  match p.here with
  | .file _ => .error .notFolder
  | .folder entries =>
    let name := String.ofList part
    if Path.isIdle part then .ok p
    else if part = Path.upwards then
      match p.around with
      | [] => .error .missing
      | (outer, _) :: around => .ok ⟨outer, around⟩
    else if Path.maxNameSize < name.utf8ByteSize then .error .nameTooLong
    else
      match Entries.find? entries name with
      | some inner => .ok ⟨inner, (p.here, name) :: p.around⟩
      | none => .error .missing

def root (p : Position) : FileTree :=
  p.around.foldl (fun inner (outer, name) =>
    match outer with
    | .folder entries => .folder (Entries.put entries name inner)
    | .file _ => outer) p.here

end Position

def checkPath (p : Path) : Except FileError Unit :=
  if p.contains '\x00' then .error .zeroInName
  else if Path.maxSize < p.utf8ByteSize then .error .nameTooLong
  else if p.isEmpty || p.isAbsolute then .error .missing
  else .ok ()

def follow (root : FileTree) (parts : List (List Char)) : Except FileError Position :=
  parts.foldlM Position.enter ⟨root, []⟩

def at? (root : FileTree) : Files := fun p => do
  checkPath p
  return (← root.follow p.parts).here

/-- Writes a file below a folder. Folders are not made, and the name must be one of a file: no dots,
and no slash after it. -/
def write (root : FileTree) (p : Path) (text : String) : Except FileError FileTree := do
  checkPath p
  let slashes := p.parts.reverse.takeWhile List.isEmpty
  match p.parts.reverse.dropWhile List.isEmpty with
  | [] => throw .isFolder
  | last :: before =>
    let place ← root.follow before.reverse
    match place.here with
    | .file _ => throw .notFolder
    | .folder entries =>
      let name := String.ofList last
      if Path.isIdle last || last = Path.upwards || !slashes.isEmpty then throw .isFolder
      else if Path.maxNameSize < name.utf8ByteSize then throw .nameTooLong
      else
        match Entries.find? entries name with
        | some (.folder _) => throw .isFolder
        | _ => return { place with here := .folder (Entries.put entries name (.file text)) }.root

def graft (inner : FileTree) (t : FileTree) : List (List Char) → FileTree
  | [] => inner
  | part :: rest =>
    let entries := match t with
      | .folder entries => entries
      | .file _ => []
    let name := String.ofList part
    .folder (Entries.put entries name
      (graft inner ((Entries.find? entries name).getD default) rest))

def place (root : FileTree) (p : Path) (inner : FileTree) : FileTree :=
  graft inner root (p.parts.filter (!Path.isIdle ·))

end FileTree
abbrev Listing := List (Path × String)

namespace Path

def busyParts (p : Path) : List (List Char) := p.parts.filter (!isIdle ·)

/-- What leads from a folder to a path, if the path is in the folder or is the folder. -/
def below? (folder p : Path) : Option (List (List Char)) :=
  if p.isAbsolute = folder.isAbsolute && folder.busyParts.isPrefixOf p.busyParts then
    some (p.busyParts.drop folder.busyParts.length)
  else none

end Path

namespace Listing

/-- The files in the order of their parts, which is that of the names in each folder. -/
def sorted (files : Listing) : Listing :=
  files.mergeSort fun a b => !decide (b.1.busyParts < a.1.busyParts)

def folder (files : Listing) (path : Path) : Except FileError FileTree :=
  let found := files.sorted.filterMap fun (p, text) => (path.below? p).map (·, text)
  if found.isEmpty then .error .missing
  else .ok ((found.filter (!·.1.isEmpty)).foldl
    (fun t (parts, text) => FileTree.graft (.file text) t parts) (.folder []))

end Listing
end Lexicon
