import Lexicon.Compile.Document

/-!
# Compiling with a stack

`Compile` hands the scope down as a value. Here the same compiler keeps it on a stack that lives as
long as the compilation: a definition is entered by a push and left by a pop, after a failure too.
The machine also writes down every scope there has been and every reference that was resolved, which
lets a theorem speak about the course of a compilation rather than its result.
-/

namespace Lexicon

namespace Context

def inScope (ctx : Context) (scope : List Reference) : Context := { ctx with scope }

/-- The definition that a reference leads to. On a cycle that is permitted there is none. -/
def resolve (ctx : Context) (reference : String) :
    Except CompileError (Option (Reference × Definition)) := do
  let d ← ctx.lookup reference
  match ← ctx.follow? (ctx.qualify reference) with
  | none => return none
  | some _ => return some (ctx.qualify reference, d)

end Context

structure Resolution where
  scope : List Reference
  reference : String
  result : Except CompileError (Option (Reference × Definition))

structure Machine where
  tables : Tables
  /-- The definitions under way, the innermost first. -/
  scope : List Reference := []
  /-- What the scope was after each push and pop, the last one first. -/
  scopes : List (List Reference) := []
  /-- The references that were resolved, the last one first. -/
  resolved : List Resolution := []

namespace Machine

def enter (m : Machine) (r : Reference) : Machine :=
  { m with scope := r :: m.scope, scopes := (r :: m.scope) :: m.scopes }

def leave (m : Machine) : Machine :=
  { m with scope := m.scope.tail, scopes := m.scope.tail :: m.scopes }

end Machine

abbrev Stacked (α : Type) := ExceptT CompileError (StateM Machine) α

namespace Stacked

variable {α : Type}

def runOn (m : Machine) (c : Stacked α) : Except CompileError α × Machine := (ExceptT.run c).run m

def onTables (c : Compile α) : Stacked α :=
  ExceptT.mk fun m => ((c.runOn m.tables).1, { m with tables := (c.runOn m.tables).2 })

/-- The result of a step or its error, which does not end the compilation here. -/
def outcome (c : Stacked α) : Stacked (Except CompileError α) := ExceptT.lift (ExceptT.run c)

/-- Compiles in the scope of a definition. The definition is left before an error goes on. -/
def within (r : Reference) (c : Stacked α) : Stacked α := do
  modify fun m => m.enter r
  let result ← outcome c
  modify Machine.leave
  result

def context (ctx : Context) : Stacked Context := return ctx.inScope (← get).scope

def resolve (ctx : Context) (reference : String) : Stacked (Option (Reference × Definition)) := do
  let here ← context ctx
  let result := here.resolve reference
  modify fun m => { m with resolved := ⟨here.scope, reference, result⟩ :: m.resolved }
  result

abbrev Apply := TypeCompiler → Definition → Address → Stacked Validator

section
variable (apply : Apply) (ctx : Context)

def dispatchWith (d : Definition) (a : Address) : Stacked Validator := do
  apply (← ctx.registry.resolve d.tag) d a

def extendedWith (d : Definition) (a : Address) : Stacked Validator := do
  let v ← dispatchWith apply ctx d a
  onTables (Compile.extend v d.description d.default? a)

def nodeWith (d : Definition) (a : Address) : Stacked (Option Validator) := do
  match ← onTables (Compile.override? a) with
  | some .omit => return none
  | some (.replace v) => return some v
  | none => return some (← extendedWith apply ctx d a)

def fieldsWith (s : ObjectShape Definition) (a : Address) :
    List (String × Definition) → Stacked (List (String × Validator))
  | [] => return []
  | (key, d) :: rest => do
    onTables (if s.required.contains key then Compile.requireNode (a.property key) else pure ())
    match ← nodeWith apply ctx d (a.property key) with
    | none => fieldsWith s a rest
    | some v =>
      let field := if s.nullable.contains key then v.asNullable else v
      return (key, field) :: (← fieldsWith s a rest)

def objectWith (s : ObjectShape Definition) (a : Address) : Stacked Validator := do
  let fields ← fieldsWith apply ctx s a s.properties
  let additional := ((← onTables get).options.getD a).additional
  return .object (fields ++ additional)

def arrayWith (s : ArrayShape Definition) (a : Address) : Stacked Validator := do
  let items := (← nodeWith apply ctx s.items a.element).getD .never
  return Validator.array items
    |>.bounded Validator.minLength s.minLength
    |>.bounded Validator.maxLength s.maxLength

def branchWith (compiler : TypeCompiler) (reference : String) (a : Address) :
    Stacked (Option Validator) := do
  match ← onTables (Compile.override? a) with
  | some .omit => return none
  | some (.replace v) => return some v
  | none =>
    let v ← apply compiler (.ref { target := reference }) a
    return some (← onTables (Compile.extend v none none a))

/-- The tag of a branch is settled before the branch is compiled. -/
def branchesWith (compiler : TypeCompiler) (a : Address) (index : Nat) :
    List String → Stacked (List (String × Validator))
  | [] => return []
  | reference :: rest => do
    let tag := ((← context ctx).qualify reference).discriminator
    match ← branchWith apply compiler reference (a.branch index) with
    | none => branchesWith compiler a (index + 1) rest
    | some v => return (tag, v) :: (← branchesWith compiler a (index + 1) rest)

def unionWith (s : UnionShape) (a : Address) : Stacked Validator := do
  let compiler ← ctx.registry.require "ref"
  return .taggedUnion Compile.typeField (← branchesWith apply ctx compiler a 0 s.refs) s.closed

def targetWith (target : Definition) (a : Address) : Stacked Validator := do
  match target with
  | .record ⟨_, _, none⟩ => return .never
  | .record ⟨description, _, some s⟩ =>
    let v ← apply (← ctx.registry.require "object") (.object s) a
    return v.annotate (s.description.or description) none
  | d => return (← dispatchWith apply ctx d a).annotate d.description d.default?

def refWith (s : RefShape) (a : Address) : Stacked Validator := do
  if ctx.followRefs then
    match ← resolve ctx s.target with
    | none => return .any
    | some (r, target) => within r (targetWith apply ctx target a)
  else return .any

/-- Leaves have no nodes inside, so it does not matter how these would be compiled. -/
def leaf (type : NodeType) (d : Definition) (a : Address) : Stacked Validator :=
  onTables (Compile.typedWith (fun _ _ _ _ => return .never) ctx type d a)

/-- A token is named after the definition on top of the stack. -/
def typedWith (type : NodeType) (d : Definition) (a : Address) : Stacked Validator := do
  match type with
  | .array =>
    let held := match d with | .array s => some s | _ => none
    let s ← onTables (Compile.view held (ArrayShape.ofFields Definition.ofJson) d a)
    arrayWith apply ctx s a
  | .object =>
    let held := match d with | .object s | .params s => some s | _ => none
    let s ← onTables (Compile.view held (ObjectShape.reader Definition.ofJson).ofFields d a)
    objectWith apply ctx s a
  | .union =>
    let held := match d with | .union s => some s | _ => none
    let s ← onTables (Compile.view held UnionShape.reader.ofFields d a)
    unionWith apply ctx s a
  | .ref =>
    let held := match d with | .ref s => some s | _ => none
    let s ← onTables (Compile.view held RefShape.ofFields d a)
    refWith apply ctx s a
  | .token =>
    let held := match d with | .token s => some s | _ => none
    let _ ← onTables (Compile.view held BareShape.reader.ofFields d a)
    return (← context ctx).tokenValidator a
  | type => leaf ctx type d a

def applyWith (compiler : TypeCompiler) (d : Definition) (a : Address) : Stacked Validator :=
  match compiler with
  | .anything => return .any
  | .constant v => return v
  | .unsupported tag => throw (.unsupportedType tag)
  | .node type => typedWith apply ctx type d a

end

def compileAt (ctx : Context) : Nat → Apply
  | 0 => fun _ _ _ => throw .tooDeep
  | depth + 1 => applyWith (compileAt ctx depth) ctx

section
variable (apply : Apply) (ctx : Context)

def objectFacetWith (shape : Option (ObjectShape Definition)) (a : Address) :
    Stacked Validator := do
  match shape with
  | none => return .never
  | some s =>
    match ← onTables (Compile.override? a) with
    | some .omit => return .never
    | some (.replace v) => return v
    | none =>
      onTables (Compile.markRequired a)
      let v ← apply (← ctx.registry.require "object") (.object s) a
      onTables (Compile.extend v s.description none a)

def schemaFacetWith (schema : Option Definition) (a : Address) : Stacked Validator := do
  match schema with
  | none => return .never
  | some d =>
    onTables (Compile.requireNode a)
    return (← nodeWith apply ctx d a).getD .never

def bodyFacetsWith (body : Option (Body Definition)) (a : Address) : Stacked BodyFacets := do
  match body with
  | none => return .never
  | some b =>
    return ⟨literalOrNever b.encoding, ← schemaFacetWith apply ctx b.schema (a.property "schema")⟩

def messageFacetWith (message : Option (Message Definition)) (a : Address) : Stacked Validator :=
  schemaFacetWith apply ctx (message.bind Message.schema) (a.property "schema")

def envelopeWith (d : Definition) (a : Address) : Stacked (Option Compiled) := do
  match d with
  | .record s =>
    return some (.record (literalOrNever s.key)
      (← objectFacetWith apply ctx s.record (a.property "record")))
  | .query s =>
    let parameters ← objectFacetWith apply ctx s.parameters (a.property "parameters")
    let output ← bodyFacetsWith apply ctx s.output (a.property "output")
    return some (.query parameters output (NamedError.validator s.errors))
  | .procedure s =>
    let parameters ← objectFacetWith apply ctx s.parameters (a.property "parameters")
    let input ← bodyFacetsWith apply ctx s.input (a.property "input")
    let output ← bodyFacetsWith apply ctx s.output (a.property "output")
    return some (.procedure parameters input output (NamedError.validator s.errors))
  | .subscription s =>
    let parameters ← objectFacetWith apply ctx s.parameters (a.property "parameters")
    let message ← messageFacetWith apply ctx s.message (a.property "message")
    return some (.subscription parameters message (NamedError.validator s.errors))
  | _ => return none

def definitionWith (d : Definition) (a : Address) : Stacked Compiled := do
  match ← envelopeWith apply ctx d a with
  | some c => return c
  | none => return .schema (← extendedWith apply ctx d a)

end

section
variable (ctx : Context) (d : Definition) (a : Address)

def compileNode : Stacked (Option Validator) := nodeWith (compileAt ctx (ctx.depth d)) ctx d a

def compileExtended : Stacked Validator := extendedWith (compileAt ctx (ctx.depth d)) ctx d a

def compileDefinition : Stacked Compiled := definitionWith (compileAt ctx (ctx.depth d)) ctx d a

end

def definitions (ctx : Context) (nsid : String) :
    List (String × Definition) → Stacked (Entries Compiled)
  | [] => return []
  | (name, d) :: rest => do
    match ← onTables (Compile.override? name) with
    | some .omit => definitions ctx nsid rest
    | some (.replace v) => return (name, .schema v) :: (← definitions ctx nsid rest)
    | none =>
      let c ← within ⟨nsid, name⟩ (compileDefinition ctx d name)
      return (name, c) :: (← definitions ctx nsid rest)

end Stacked

def Document.compileStacked (doc : Document) (o : CompileOptions) :
    Except CompileError CompiledLexicon × Machine :=
  let ctx := (Context.ofOptions o).register doc
  let run := (Stacked.definitions ctx (doc.id.getD "") doc.defs).runOn { tables := ⟨o.table, []⟩ }
  let tables := run.2.tables
  (run.1.map fun defs => ⟨doc.id, defs, tables.metadata, tables.options⟩, run.2)

end Lexicon
