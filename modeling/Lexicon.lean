import Lexicon.Address
import Lexicon.Binary64
import Lexicon.Binary64.Digits
import Lexicon.Binary64.Literal
import Lexicon.Catalog
import Lexicon.Command
import Lexicon.Command.Arguments
import Lexicon.Compile.Document
import Lexicon.Compile.Envelope
import Lexicon.Compile.Error
import Lexicon.Compile.Export
import Lexicon.Compile.Leaf
import Lexicon.Compile.Node
import Lexicon.Compile.Tables
import Lexicon.Config
import Lexicon.Config.File
import Lexicon.Context
import Lexicon.Definition.Basic
import Lexicon.Definition.Reader
import Lexicon.Definition.Writer
import Lexicon.Document.Basic
import Lexicon.Document.Text
import Lexicon.Entries
import Lexicon.File.Form
import Lexicon.File.Tree
import Lexicon.File.Path
import Lexicon.Json.Basic
import Lexicon.Json.Printer
import Lexicon.Json.Reader
import Lexicon.Main
import Lexicon.Mismatch
import Lexicon.Options
import Lexicon.Outline
import Lexicon.Proofs.Binary64
import Lexicon.Proofs.Compile.Depth
import Lexicon.Proofs.Compile.Run
import Lexicon.Proofs.Compile.Transparency
import Lexicon.Proofs.Definition.Parts
import Lexicon.Proofs.Definition.Read
import Lexicon.Proofs.Definition.Weight
import Lexicon.Proofs.Entries
import Lexicon.Proofs.Registry
import Lexicon.Proofs.Typed
import Lexicon.Proofs.Validator.Acceptance
import Lexicon.Proofs.Validator.Validity
import Lexicon.Reference
import Lexicon.Registry
import Lexicon.Text.Split
import Lexicon.Text.Quoted
import Lexicon.Typed
import Lexicon.Validator.Basic
import Lexicon.Validator.Parse
import Lexicon.Validator.Schema
import Lexicon.Validator.Violation
import Lexicon.Yaml.Chars
import Lexicon.Yaml.Node
import Lexicon.Yaml.Scalar
import Lexicon.Yaml.Token
import Lexicon.Yaml.Value
import Lexicon.Proofs.Validator.SchemaAgreement
import Lexicon.Proofs.Compile.Builtin
import Lexicon.Proofs.Compile.Consults
import Lexicon.Proofs.Outline.Coverage
import Lexicon.Proofs.Outline.Options
import Lexicon.Proofs.Address
import Lexicon.Proofs.Compile.Marks
import Lexicon.Proofs.Compile.Correctness
import Lexicon.Proofs.Validator.Conversion
import Lexicon.Proofs.Validator.OutputSchema
import Lexicon.Proofs.Validator.Stability
import Lexicon.Proofs.Compile.Policies
import Lexicon.Proofs.References
import Lexicon.Proofs.Compile.Detects
import Lexicon.Proofs.Compile.Cycles
import Lexicon.Proofs.Compile.Facets
import Lexicon.Proofs.Compile.Mirrors
import Lexicon.Proofs.Compile.Effects
import Lexicon.Proofs.Compile.Errors
import Lexicon.Proofs.Compile.Relocation
import Lexicon.Proofs.Compile.Definitions
import Lexicon.Proofs.Compile.Order
import Lexicon.Proofs.Compile.Settles
import Lexicon.Proofs.Compile.Nodes
import Lexicon.Proofs.Compile.Flags
import Lexicon.Proofs.Definition.Readable
import Lexicon.Proofs.Definition.Fields
import Lexicon.Proofs.Definition.RoundTrip
import Lexicon.Proofs.Compile.Stack
import Lexicon.Proofs.Compile.Balance
import Lexicon.Proofs.Compile.Failures
import Lexicon.Proofs.Compile.Scope
import Lexicon.Proofs.Compile.LocalReferences
import Lexicon.Proofs.Outline.Basic
import Lexicon.Proofs.Outline.Counts
import Lexicon.Proofs.Catalog
import Lexicon.Proofs.Config
import Lexicon.Proofs.Command
import Lexicon.Proofs.Compile.Views
import Lexicon.Proofs.Compile.Places
import Lexicon.Proofs.Compile.Branches
import Lexicon.Proofs.Compile.Omission
import Lexicon.Proofs.Compile.Parallel
import Lexicon.Proofs.Validator.Refines
import Lexicon.Proofs.Compile.Easing
import Lexicon.Proofs.Compile.Constants
import Lexicon.Proofs.Compile.Replacements
import Lexicon.Proofs.Compile.Unfollowed
import Lexicon.Proofs.Outline.Distinct
import Lexicon.Proofs.Validator.Pointers
import Lexicon.Proofs.Compile.CustomTags
import Lexicon.Proofs.Validator.SchemaForm
import Lexicon.Proofs.Compile.Yields
import Lexicon.Proofs.Compile.Exports
import Lexicon.Proofs.Compile.Integers
import Lexicon.Proofs.Compile.FieldOrder
import Lexicon.Proofs.Address.Positions
import Lexicon.Proofs.Address.Segments
import Lexicon.Proofs.Json
import Lexicon.Proofs.Validator.TaggedUnions
import Lexicon.Proofs.Compile.EnforcedConstants
import Lexicon.Proofs.Catalog.Loading
import Lexicon.Proofs.Validator.Locations
