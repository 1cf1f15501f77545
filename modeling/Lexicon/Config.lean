import Lexicon.Compile.Document

/-!
# Configurations

A configuration holds the settings of a compilation as they are written down: policies,
directories with documents, and options by address, where replacements and added fields are
definitions. `Config.options` compiles these definitions, each on its own.
-/

namespace Lexicon

structure AddressConfig where
  /-- The node is left out; this goes before a replacement. -/
  omitted : Bool := false
  required? : Option Bool := none
  metadata? : Option (Entries Json) := none
  /-- The definition in the place of the node. -/
  replacement? : Option Json := none
  additional : Entries Json := []

structure Config where
  followRefs? : Option Bool := none
  directories : List String := []
  cyclePolicy : CyclePolicy := .fail
  constPolicy : ConstPolicy := .default
  addresses : Entries AddressConfig := []

namespace Config

/-- A choice between names: one of them as a text, or as the only key of an object whose value is
null. -/
def readChoice {α : Type} (choices : Entries α) : Read α := fun x =>
  let named (name : String) : Except Mismatch α :=
    match choices.find? name with
    | some a => .ok a
    | none => .error (.unknownChoice name choices.keys)
  match x with
  | .string name => named name
  | .object [(name, value)] => do
    let a ← named name
    match value with
    | .null => return a
    | found => throw (.kind found "unit")
  | .object _ => .error .notOneKey
  | found => .error (.kind found "string or map")

def cyclePolicies : Entries CyclePolicy := [("fail", .fail), ("permissive", .permissive)]

def constPolicies : Entries ConstPolicy := [("default", .default), ("enforce", .enforce)]

end Config

def AddressConfig.fields : List String :=
  ["omit", "required", "metadata", "override", "additional_props"]

def AddressConfig.reader : FieldReader AddressConfig where
  name := "struct PathConfig"
  fields := fields
  blank := {}
  read c key x :=
    match key with
    | "omit" => return { c with omitted := ← Read.bool x }
    | "required" => return { c with required? := ← Read.optional Read.bool x }
    | "metadata" => return { c with metadata? := ← Read.optional (Read.entries Read.any) x }
    | "override" => return { c with replacement? := ← Read.optional Read.any x }
    | "additional_props" => return { c with additional := ← Read.entries Read.any x }
    | _ => throw (.unknownField key fields)

namespace Config

def fields : List String :=
  ["follow_refs", "lexicon_dirs", "cycle_policy", "const_policy", "paths"]

def sorted {α : Type} (entries : Entries α) : Entries α :=
  entries.foldl (fun acc e => acc.put e.1 e.2) []

def reader : FieldReader Config where
  name := "struct CliConfig"
  fields := fields
  blank := {}
  read c key x :=
    match key with
    | "follow_refs" => return { c with followRefs? := ← Read.optional Read.bool x }
    | "lexicon_dirs" => return { c with directories := ← Read.list Read.path x }
    | "cycle_policy" => return { c with cyclePolicy := ← readChoice cyclePolicies x }
    | "const_policy" => return { c with constPolicy := ← readChoice constPolicies x }
    | "paths" =>
      return { c with addresses := sorted (← Read.entries AddressConfig.reader.ofJson x) }
    | _ => throw (.unknownField key fields)

def ofJson : Read Config := reader.ofJson

def followRefs (c : Config) : Bool := c.followRefs?.getD true

end Config

inductive OverrideError where
  | notADefinition (source : DefinitionError)
  | uncompiled (tag : String) (source : CompileError)

def OverrideError.chain : OverrideError → List String
  | notADefinition source => ["override is not a Lexicon definition", source.message]
  | uncompiled tag source => s!"failed to compile '{tag}' override" :: source.chain

inductive OptionsError where
  | replacement (address : Address) (source : OverrideError)
  | additional (address : Address) (key : String) (source : OverrideError)

def OptionsError.chain : OptionsError → List String
  | replacement address source => s!"invalid options for path '{address}'" :: source.chain
  | additional address key source =>
    s!"invalid options for path '{address}'" :: s!"invalid additional property '{key}'" ::
      source.chain

namespace Config

/-- Compiles a definition of the configuration on its own: no options apply inside it. -/
def compileOverride (options : CompileOptions) (x : Json) : Except OverrideError Validator := do
  let d ← (Definition.ofJson x).mapError .notADefinition
  (compilePartialSchema d.tag x { options with table := {} }).mapError (.uncompiled d.tag)

/-- The options for one address. A replacement that is required has to be present. -/
def pathOptions (options : CompileOptions) (a : Address) (c : AddressConfig) :
    Except OptionsError PathOptions := do
  let override? ←
    if c.omitted then pure (some Override.omit)
    else match c.replacement? with
      | none => pure none
      | some x => do
        let v ← (compileOverride options x).mapError (OptionsError.replacement a)
        pure (some (.replace (if c.required? = some true then v.asRequired else v)))
  let additional ← c.additional.mapM fun (key, x) => do
    let v ← (compileOverride options x).mapError (OptionsError.additional a key)
    return (key, v)
  return { override?, required? := c.required?, metadata? := c.metadata?, additional }

/-- The options of a compilation. The definitions of the configuration see the dictionary. -/
def options (c : Config) (lexicons : Dictionary) (followRefs : Bool) :
    Except OptionsError CompileOptions := do
  let base : CompileOptions :=
    { followRefs, lexicons, cyclePolicy := c.cyclePolicy, constPolicy := c.constPolicy }
  let table ← c.addresses.mapM fun (a, entry) => do return (a, ← pathOptions base a entry)
  return { base with table := .ofList table }

end Config
end Lexicon
