import Lexicon.Command

/-!
# Arguments of a command

A command is given as words: its name, its operands and its options, in any order. The value of an
option is the next word, or stands after an equals sign in the same one. After two dashes all words
are operands.
-/

namespace Lexicon

inductive Argument where
  | option (name : String) (value : String)
  | switch (name : String)
  | operand (text : String)

inductive UsageError where
  | unknown (name : String)
  | valueMissing (name : String)
  | valueUnwanted (name : String)
  | repeated (name : String)
  | operands

def UsageError.message : UsageError → String
  | unknown name => s!"unknown option '{name}'"
  | valueMissing name => s!"option '{name}' needs a value"
  | valueUnwanted name => s!"option '{name}' takes no value"
  | repeated name => s!"option '{name}' is given twice"
  | operands => "\n".intercalate [
      "expected one of these commands:",
      "  compile LEXICON [--json-schema] [--output FILE]",
      "  validate LEXICON INSTANCE [--def NAME] [--facet FACET]",
      "  paths LEXICON [--json]",
      "with [--config FILE] [--lexicons DIR]... [--no-follow-refs]"]

namespace Argument

def takesValue? : String → Option Bool
  | "--config" | "--lexicons" | "--output" | "--def" | "--facet" => some true
  | "--no-follow-refs" | "--json-schema" | "--json" => some false
  | _ => none

def fullName : String → String
  | "-o" => "--output"
  | name => name

def splitWord (word : String) : String × Option String :=
  let name := fullName (String.ofList (word.toList.takeWhile (· ≠ '=')))
  match word.toList.dropWhile (· ≠ '=') with
  | [] => (name, none)
  | _ :: value => (name, some (String.ofList value))

def isOperand (word : String) : Bool := word = "-" || word.toList.head? ≠ some '-'

def ofWords : List String → Except UsageError (List Argument)
  | [] => .ok []
  | "--" :: rest => .ok (rest.map operand)
  | word :: rest =>
    if isOperand word then
      return operand word :: (← ofWords rest)
    else
      let (name, value?) := splitWord word
      match takesValue? name, value?, rest with
      | none, _, _ => .error (.unknown name)
      | some false, none, rest => return switch name :: (← ofWords rest)
      | some false, some _, _ => .error (.valueUnwanted name)
      | some true, some value, rest => return option name value :: (← ofWords rest)
      | some true, none, value :: rest => return option name value :: (← ofWords rest)
      | some true, none, [] => .error (.valueMissing name)
termination_by words => words.length

def name? : Argument → Option String
  | option name _ | switch name => some name
  | operand _ => none

def operand? : Argument → Option String
  | operand text => some text
  | _ => none

def valuesOf (name : String) (xs : List Argument) : List String :=
  xs.filterMap fun
    | option name' value => if name' = name then some value else none
    | _ => none

def isOn (name : String) (xs : List Argument) : Bool :=
  xs.any fun
    | switch name' => name' = name
    | _ => false

def repeated? : List String → Option String
  | [] => none
  | name :: rest => if name ∈ rest then some name else repeated? rest

/-- The options are those of all commands and the given ones, and all but the folders stand once. -/
def check (own : List String) (xs : List Argument) : Except UsageError Unit :=
  let names := xs.filterMap name?
  match names.find? (· ∉ "--config" :: "--lexicons" :: "--no-follow-refs" :: own) with
  | some name => .error (.unknown name)
  | none =>
    match repeated? (names.filter (· ≠ "--lexicons")) with
    | some name => .error (.repeated name)
    | none => .ok ()

end Argument

open Argument

def Settings.ofArguments (xs : List Argument) : Settings where
  config? := (valuesOf "--config" xs).head?
  directories := valuesOf "--lexicons" xs
  noFollowRefs := isOn "--no-follow-refs" xs

namespace Command

def ofArguments (xs : List Argument) : Except UsageError Command := do
  match xs.filterMap operand? with
  | ["compile", lexicon] =>
    check ["--json-schema", "--output"] xs
    return compile lexicon (isOn "--json-schema" xs) (valuesOf "--output" xs).head?
  | ["validate", lexicon, value] =>
    check ["--def", "--facet"] xs
    let name := (valuesOf "--def" xs).head?.getD "main"
    return validate lexicon name (valuesOf "--facet" xs).head? value
  | ["paths", lexicon] =>
    check ["--json"] xs
    return paths lexicon (isOn "--json" xs)
  | _ => throw .operands

def ofWords (words : List String) : Except UsageError (Settings × Command) := do
  let xs ← Argument.ofWords words
  return (.ofArguments xs, ← ofArguments xs)

def files (s : Settings) : Command → List Path
  | compile lexicon _ _ | paths lexicon _ => lexicon :: s.config?.toList
  | validate lexicon _ _ value => lexicon :: value :: s.config?.toList

end Command
end Lexicon
