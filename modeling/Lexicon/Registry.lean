import Lexicon.Compile.Error
import Lexicon.Validator.Basic

/-!
# Registries

A registry assigns a compiler to each `type` tag. The built-in registry knows every node type and
accepts anything for other tags, by the entry for `$default`; callers lay entries of their own
over it.
-/

namespace Lexicon

inductive NodeType where
  | string
  | integer
  | boolean
  | null
  | unknown
  | blob
  | bytes
  | cidLink
  | token
  | array
  | object
  | union
  | ref
  deriving DecidableEq, Repr

/-- How a tag is compiled. A caller can register each of these for a tag; a function of the caller's
own, which would read the context and with it the registry that holds it, is not among them. -/
inductive TypeCompiler where
  /-- Every value is accepted. -/
  | anything
  /-- As a node of a type; a definition of another type is read again as one. -/
  | node (type : NodeType)
  /-- To a validator that is given. -/
  | constant (v : Validator)
  /-- To the error that a tag is not supported. -/
  | unsupported (tag : String)

structure Registry where
  compilers : Entries TypeCompiler := []

namespace Registry

/-- The tag whose entry serves the tags that have none. -/
def defaultTag : String := "$default"

def register (r : Registry) (tag : String) (c : TypeCompiler) : Registry :=
  ⟨r.compilers.put tag c⟩

def ofList (pairs : List (String × TypeCompiler)) : Registry :=
  pairs.foldl (fun r e => r.register e.1 e.2) {}

def overlaid (r overrides : Registry) : Registry :=
  overrides.compilers.foldl (fun r e => r.register e.1 e.2) r

def builtin : Registry := ofList [
  (defaultTag, .anything),
  ("string", .node .string),
  ("integer", .node .integer),
  ("boolean", .node .boolean),
  ("null", .node .null),
  ("unknown", .node .unknown),
  ("blob", .node .blob),
  ("bytes", .node .bytes),
  ("cid-link", .node .cidLink),
  ("token", .node .token),
  ("array", .node .array),
  ("object", .node .object),
  ("params", .node .object),
  ("union", .node .union),
  ("ref", .node .ref)]

def contains (r : Registry) (tag : String) : Bool := r.compilers.contains tag

def tags (r : Registry) : List String := r.compilers.keys

def require (r : Registry) (tag : String) : Except CompileError TypeCompiler :=
  match r.compilers.find? tag with
  | some c => .ok c
  | none => .error (.unsupportedType tag)

def resolve (r : Registry) (tag : String) : Except CompileError TypeCompiler :=
  match r.compilers.find? tag, r.compilers.find? defaultTag with
  | some c, _ => .ok c
  | none, some c => .ok c
  | none, none => .error (.unsupportedType tag)

theorem find?_register (r : Registry) (tag other : String) (c : TypeCompiler) :
    (r.register tag c).compilers.find? other =
      if tag = other then some c else r.compilers.find? other :=
  Entries.find?_put r.compilers tag other c

end Registry
end Lexicon
