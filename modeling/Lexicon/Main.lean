import Lexicon.Command.Arguments
import Lexicon.File.Tree

/-!
# Command line

Reads the files that a command needs, runs the command on them and writes its report. Where folders
are to be loaded, the names of the files below them come from the standard input, one on a line.
The exit status is 0 if all went well, 1 after an error or a value that was refused, and 2 if the
words are not a command.
-/

namespace Lexicon.CommandLine

def fileError : IO.Error → FileError
  | .noFileOrDirectory .. | .noSuchThing .. => .missing
  | .inappropriateType _ code _ => if code = 21 then .isFolder else .notFolder
  | e => .system e.toString

def readText (path : Path) : IO (Except FileError String) := do
  return (← (IO.FS.readFile path).toBaseIO).mapError fileError

def readFiles (paths : List Path) : IO (Entries (Except FileError FileTree)) :=
  paths.mapM fun path => return (path, (← readText path).map .file)

partial def readLines (input : IO.FS.Stream) : IO (List String) := do
  let line ← input.getLine
  if line.isEmpty then return []
  return (line.dropEndWhile (· = '\n')).toString :: (← readLines input)

/-- The texts of the files that hold documents. All others are taken for empty. -/
def readListing (paths : List Path) : IO Listing :=
  paths.mapM fun path => do
    if Catalog.holdsDocument path then
      return (path, ← IO.FS.readFile path)
    else
      return (path, "")

def readAll (s : Settings) (command : Command) : IO Files := do
  let named ← readFiles (command.files s)
  let files : Files := fun path => (Entries.find? named path).getD (.error .missing)
  let folders := s.directories ++ ((s.loadConfig files).toOption.elim [] Config.directories)
  if folders.isEmpty then
    return files
  let listing ← readListing (← readLines (← IO.getStdin))
  return fun path => if path ∈ folders then listing.folder path else files path

def write (report : Report) : IO UInt32 := do
  match report.target? with
  | none => IO.print report.text
  | some path =>
    if let .error e ← (IO.FS.writeFile path report.text).toBaseIO then
      IO.eprintln (CommandError.unwritable path (fileError e)).message
      return 1
  return if report.success then 0 else 1

def run (words : List String) : IO UInt32 := do
  match Command.ofWords words with
  | .error e =>
    IO.eprintln e.message
    return 2
  | .ok (s, command) =>
    match command.run s (← readAll s command) with
    | .error e =>
      IO.eprintln e.message
      return 1
    | .ok report => write report

end Lexicon.CommandLine

def main (words : List String) : IO UInt32 := Lexicon.CommandLine.run words
