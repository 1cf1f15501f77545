import Lexicon.Mismatch
import Lexicon.Reference

/-!
# Compile errors

Every error ends the compilation.
-/

namespace Lexicon

inductive CompileError where
  | unsupportedType (tag : String)
  | unknownDocument (reference nsid : String)
  | unknownDefinition (reference : String) (target : Reference)
  /-- A reference leads back to a definition that is being compiled; the chain ends with it. -/
  | cycle (chain : List Reference)
  /-- The fields of a definition do not fit its compiler. -/
  | malformed (address : String) (source : DefinitionError)
  | definition (source : DefinitionError)
  /-- Definitions nest deeper than the dictionary allows for. -/
  | tooDeep

def CompileError.message : CompileError → String
  | unsupportedType tag => s!"unsupported parser type: {tag}"
  | unknownDocument reference nsid =>
    s!"cannot infer reference lexicon '{nsid}' for ref '{reference}'"
  | unknownDefinition reference target =>
    s!"cannot infer reference definition '{target.name}' in lexicon '{target.nsid}' for ref " ++
      s!"'{reference}'"
  | cycle chain => "reference cycle: " ++ " -> ".intercalate (chain.map Reference.text)
  | malformed address source => s!"malformed definition at '{address}': {source.message}"
  | definition source => s!"lexicon error: {source.message}"
  | tooDeep => "definitions nest too deep"

def CompileError.chain (e : CompileError) : List String :=
  match e with
  | malformed _ source | definition source => [e.message, source.message]
  | _ => [e.message]

end Lexicon
