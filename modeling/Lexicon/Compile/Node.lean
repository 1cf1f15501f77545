import Lexicon.Compile.Leaf

/-!
# Compiling nodes

A node is compiled by the compiler of its tag, in two steps that every node shares: what the
options put in its place comes first, and what its compiler gives is then extended by its
description, its default and the options. The compilers of composite nodes take the way to compile
the nodes inside them as a parameter; `compileAt` ties the knot for a bounded nesting, and
`Context.depth` bounds it for every definition: a reference leads out of a definition, but only to
one that is not in the scope yet.
-/

namespace Lexicon

abbrev Apply := TypeCompiler → Context → Definition → Address → Compile Validator

namespace Compile

/-- The record that a compiler wants: the one that the definition holds, or one read from its
fields. -/
def view {σ : Type} (held : Option σ) (read : Entries Json → Except Mismatch σ) (d : Definition)
    (a : Address) : Compile σ :=
  match held with
  | some s => return s
  | none => liftM ((d.reread read).mapError (CompileError.malformed a))

section
variable (apply : Apply) (ctx : Context)

def dispatchWith (d : Definition) (a : Address) : Compile Validator := do
  apply (← ctx.registry.resolve d.tag) ctx d a

def extendedWith (d : Definition) (a : Address) : Compile Validator := do
  extend (← dispatchWith apply ctx d a) d.description d.default? a

def nodeWith (d : Definition) (a : Address) : Compile (Option Validator) := do
  match ← override? a with
  | some .omit => return none
  | some (.replace v) => return some v
  | none => return some (← extendedWith apply ctx d a)

/-- The fields of an object, in the order of its properties. A property is marked as mandatory
before it is compiled. -/
def fieldsWith (s : ObjectShape Definition) (a : Address) :
    List (String × Definition) → Compile (List (String × Validator))
  | [] => return []
  | (key, d) :: rest => do
    if s.required.contains key then requireNode (a.property key)
    match ← nodeWith apply ctx d (a.property key) with
    | none => fieldsWith s a rest
    | some v =>
      let field := if s.nullable.contains key then v.asNullable else v
      return (key, field) :: (← fieldsWith s a rest)

/-- The options add their fields after those of the properties. -/
def objectWith (s : ObjectShape Definition) (a : Address) : Compile Validator := do
  let fields ← fieldsWith apply ctx s a s.properties
  let additional := ((← get).options.getD a).additional
  return .object (fields ++ additional)

/-- An array whose elements are omitted has no elements. -/
def arrayWith (s : ArrayShape Definition) (a : Address) : Compile Validator := do
  let items := (← nodeWith apply ctx s.items a.element).getD .never
  return Validator.array items
    |>.bounded Validator.minLength s.minLength
    |>.bounded Validator.maxLength s.maxLength

/-- A branch of a union; omitted, it leaves the union but keeps its position. -/
def branchWith (compiler : TypeCompiler) (reference : String) (a : Address) :
    Compile (Option Validator) := do
  match ← override? a with
  | some .omit => return none
  | some (.replace v) => return some v
  | none =>
    let v ← apply compiler ctx (.ref { target := reference }) a
    return some (← extend v none none a)

def branchesWith (compiler : TypeCompiler) (a : Address) (index : Nat) :
    List String → Compile (List (String × Validator))
  | [] => return []
  | reference :: rest => do
    match ← branchWith apply ctx compiler reference (a.branch index) with
    | none => branchesWith compiler a (index + 1) rest
    | some v =>
      return ((ctx.qualify reference).discriminator, v) ::
        (← branchesWith compiler a (index + 1) rest)

def typeField : String := "$type"

def unionWith (s : UnionShape) (a : Address) : Compile Validator := do
  let compiler ← ctx.registry.require "ref"
  return .taggedUnion typeField (← branchesWith apply ctx compiler a 0 s.refs) s.closed

/-- Compiles the definition that a reference leads to, in its scope. A record stands for its
object, and one without an object accepts nothing. -/
def targetWith (target : Definition) (a : Address) : Compile Validator := do
  match target with
  | .record ⟨_, _, none⟩ => return .never
  | .record ⟨description, _, some s⟩ =>
    let v ← apply (← ctx.registry.require "object") ctx (.object s) a
    return v.annotate (s.description.or description) none
  | d => return (← dispatchWith apply ctx d a).annotate d.description d.default?

/-- A reference is compiled at its own address, as what it leads to. It accepts anything where
references are not followed and where cycles are permitted. -/
def refWith (s : RefShape) (a : Address) : Compile Validator := do
  if ctx.followRefs then
    let target ← ctx.lookup s.target
    match ← ctx.follow? (ctx.qualify s.target) with
    | none => return .any
    | some inner => targetWith apply inner target a
  else return .any

def typedWith (type : NodeType) (d : Definition) (a : Address) : Compile Validator := do
  match type with
  | .string =>
    let held := match d with | .string s => some s | _ => none
    Compile.string ctx (← view held StringShape.reader.ofFields d a) a
  | .integer =>
    let held := match d with | .integer s => some s | _ => none
    return (← view held IntegerShape.reader.ofFields d a).validator ctx.constPolicy
  | .boolean =>
    let held := match d with | .boolean s => some s | _ => none
    return (← view held BooleanShape.reader.ofFields d a).validator ctx.constPolicy
  | .null =>
    let held := match d with | .null s => some s | _ => none
    let _ ← view held BareShape.reader.ofFields d a
    return .null
  | .unknown =>
    let held := match d with | .unknown s => some s | _ => none
    let _ ← view held BareShape.reader.ofFields d a
    return .unknown
  | .blob =>
    let held := match d with | .blob s => some s | _ => none
    Compile.blob (← view held BlobShape.reader.ofFields d a) a
  | .bytes =>
    let held := match d with | .bytes s => some s | _ => none
    return (← view held BytesShape.reader.ofFields d a).validator
  | .cidLink =>
    let held := match d with | .cidLink s => some s | _ => none
    let _ ← view held BareShape.reader.ofFields d a
    return linkValidator
  | .token =>
    let held := match d with | .token s => some s | _ => none
    let _ ← view held BareShape.reader.ofFields d a
    return ctx.tokenValidator a
  | .array =>
    let held := match d with | .array s => some s | _ => none
    arrayWith apply ctx (← view held (ArrayShape.ofFields Definition.ofJson) d a) a
  | .object =>
    let held := match d with | .object s | .params s => some s | _ => none
    objectWith apply ctx (← view held (ObjectShape.reader Definition.ofJson).ofFields d a) a
  | .union =>
    let held := match d with | .union s => some s | _ => none
    unionWith apply ctx (← view held UnionShape.reader.ofFields d a) a
  | .ref =>
    let held := match d with | .ref s => some s | _ => none
    refWith apply ctx (← view held RefShape.ofFields d a) a

end

def applyWith (apply : Apply) : Apply := fun compiler ctx d a =>
  match compiler with
  | .anything => return .any
  | .constant v => return v
  | .unsupported tag => throw (.unsupportedType tag)
  | .node type => typedWith apply ctx type d a

/-- Compiles a definition whose nodes nest less than `depth` deep, references included. -/
def compileAt : Nat → Apply
  | 0 => fun _ _ _ _ => throw .tooDeep
  | depth + 1 => applyWith (compileAt depth)

end Compile

namespace Context
variable (ctx : Context) (d : Definition) (a : Address)

def apply (compiler : TypeCompiler) : Compile Validator :=
  Compile.compileAt (ctx.depth d) compiler ctx d a

def dispatch : Compile Validator := Compile.dispatchWith (Compile.compileAt (ctx.depth d)) ctx d a

def compileExtended : Compile Validator :=
  Compile.extendedWith (Compile.compileAt (ctx.depth d)) ctx d a

def compileNode : Compile (Option Validator) :=
  Compile.nodeWith (Compile.compileAt (ctx.depth d)) ctx d a

end Context
end Lexicon
