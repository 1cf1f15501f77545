import Lexicon.Document.Basic
import Lexicon.Options
import Lexicon.Reference
import Lexicon.Registry

/-!
# Compile contexts

The context of a compilation holds what it reads: the dictionary of documents, the registry, the
policies, and the scope, which lists the definitions under way. The definition at hand stands
first in the scope. Local references are taken from inside its document, and a reference to a
definition in the scope is a cycle.
-/

namespace Lexicon

abbrev Dictionary := Entries Document

namespace Dictionary

/-- Adds a document under its id, in the place of one there. Without an id it cannot be
referenced and is left out. -/
def add (dict : Dictionary) (doc : Document) : Dictionary :=
  match doc.id with
  | some id => Entries.put dict id doc
  | none => dict

def ofList (docs : List Document) : Dictionary := docs.foldl add []

def definition? (dict : Dictionary) (r : Reference) : Option Definition :=
  (Entries.find? dict r.nsid).bind (·.definition? r.name)

def references (dict : Dictionary) : List Reference :=
  dict.flatMap fun (id, doc) => doc.defs.map fun (name, _) => ⟨id, name⟩

def weight (dict : Dictionary) : Nat := (dict.map fun (_, doc) => doc.weight).foldr (· + ·) 0

end Dictionary

structure CompileOptions where
  /-- References are resolved; otherwise they accept anything. -/
  followRefs : Bool := true
  /-- Compilers laid over the built-in ones. -/
  registry : Registry := {}
  lexicons : Dictionary := []
  table : OptionTable := {}
  cyclePolicy : CyclePolicy := .fail
  constPolicy : ConstPolicy := .default

structure Context where
  registry : Registry := .builtin
  lexicons : Dictionary := []
  followRefs : Bool := true
  cyclePolicy : CyclePolicy := .fail
  constPolicy : ConstPolicy := .default
  /-- The definitions under way, the innermost first. -/
  scope : List Reference := []

namespace Context

def ofOptions (o : CompileOptions) : Context where
  registry := Registry.builtin.overlaid o.registry
  lexicons := o.lexicons
  followRefs := o.followRefs
  cyclePolicy := o.cyclePolicy
  constPolicy := o.constPolicy

/-- Adds a document to the dictionary, unless one with its id is there. -/
def register (ctx : Context) (doc : Document) : Context :=
  match doc.id with
  | some id =>
    if Entries.contains ctx.lexicons id then ctx
    else { ctx with lexicons := ctx.lexicons.add doc }
  | none => ctx

def current? (ctx : Context) : Option Reference := ctx.scope.head?

/-- The document at hand; outside every document, the empty id. -/
def base (ctx : Context) : String := (ctx.current?.map Reference.nsid).getD ""

def qualify (ctx : Context) (reference : String) : Reference :=
  (Reference.parse reference).within ctx.base

def enter (ctx : Context) (r : Reference) : Context := { ctx with scope := r :: ctx.scope }

def leave (ctx : Context) : Context := { ctx with scope := ctx.scope.tail }

/-- Enters a definition that a reference leads to. On a cycle there is no new context or, if
cycles are an error, that error. -/
def follow? (ctx : Context) (target : Reference) : Except CompileError (Option Context) :=
  if ctx.scope.contains target then
    match ctx.cyclePolicy with
    | .permissive => .ok none
    | .fail => .error (.cycle (ctx.scope.reverse ++ [target]))
  else .ok (some (ctx.enter target))

/-- The definition that a reference leads to. The errors name the reference as it is written. -/
def lookup (ctx : Context) (reference : String) : Except CompileError Definition :=
  let target := ctx.qualify reference
  match Entries.find? ctx.lexicons target.nsid with
  | none => .error (.unknownDocument reference target.nsid)
  | some doc =>
    match doc.definition? target.name with
    | none => .error (.unknownDefinition reference target)
    | some d => .ok d

/-- The number of nested nodes that compiling a definition can reach: each definition of the
dictionary is entered at most once at a time. -/
def depth (ctx : Context) (d : Definition) : Nat :=
  ctx.lexicons.references.length * (ctx.lexicons.weight + 1) + d.weight + 1

end Context
end Lexicon
