import Lexicon.Config
import Lexicon.File.Form
import Lexicon.File.Tree

/-!
# Configuration files

A configuration is read from a file of JSON, if its extension says so, and otherwise of YAML. Its
directories are taken from inside the folder of the file.
-/

namespace Lexicon

def AddressConfig.form : Form :=
  .record fields fun name =>
    match name with
    | "omit" => .bool
    | "required" => .optional .bool
    | "metadata" => .optional (.entries .any)
    | "override" => .optional .any
    | "additional_props" => .entries .any
    | _ => .any

inductive ConfigError where
  | unreadable (path : Path) (cause : FileError)
  | invalid (path : Path) (format : FileFormat)

def ConfigError.chain : ConfigError → List String
  | unreadable path cause => [s!"failed to read config {path}", cause.message]
  | invalid path format => [s!"invalid {format.name} config {path}"]

namespace Config

def form : Form :=
  .record fields fun name =>
    match name with
    | "follow_refs" => .optional .bool
    | "lexicon_dirs" => .list .string
    | "cycle_policy" | "const_policy" => .choice
    | "paths" => .entries AddressConfig.form
    | _ => .any

def format (path : Path) : FileFormat :=
  if path.extension? = some "json" then .json else .yaml

def ofFile (path : Path) (text : String) : Except ConfigError Config :=
  match form.parse? (format path) text with
  | none => .error (.invalid path (format path))
  | some x =>
    match ofJson x with
    | .error _ => .error (.invalid path (format path))
    | .ok c => .ok { c with directories := c.directories.map path.parent.join }

def load (files : Files) (path : Path) : Except ConfigError Config := do
  ofFile path (← (files.text path).mapError (.unreadable path))

end Config
end Lexicon
