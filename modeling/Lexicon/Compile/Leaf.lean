import Lexicon.Compile.Tables

/-!
# Compiling leaves

Leaves hold no other nodes. A declared constant becomes the default and, where constants are
enforced, the only value. Blobs, bytes and links are objects with fixed fields, and a token is a
text whose default is the name of the token.
-/

namespace Lexicon

def ConstPolicy.apply (policy : ConstPolicy) (const : Option Json) (v : Validator) : Validator :=
  match const, policy with
  | none, _ => v
  | some x, .default => v.withDefault x
  | some x, .enforce => (Validator.literal x).withDefault x

def Validator.bounded {α : Type} (v : Validator) (rule : Validator → α → Validator)
    (bound : Option α) : Validator :=
  match bound with
  | some x => rule v x
  | none => v

open Validator

def StringShape.validator (s : StringShape) (policy : ConstPolicy) : Validator :=
  policy.apply s.const <| string
    |>.bounded Validator.minLength s.minLength
    |>.bounded Validator.maxLength s.maxLength
    |>.bounded oneOfStrings s.oneOf

def StringShape.metadata (s : StringShape) : List (Entries Json) :=
  (if s.knownValues.isEmpty then [] else [[("knownValues", Json.strings s.knownValues)]]) ++
    match s.format with
    | some format => [[("format", .string format)]]
    | none => []

/-- Integers are whole numbers, also where they are given as text. -/
def IntegerShape.validator (s : IntegerShape) (policy : ConstPolicy) : Validator :=
  policy.apply s.const <| integer.coerce
    |>.bounded Validator.minimum (s.minimum.map Binary64.ofInt)
    |>.bounded Validator.maximum (s.maximum.map Binary64.ofInt)
    |>.bounded oneOfNumbers (s.oneOf.map fun xs => xs.map Binary64.ofInt)

def BooleanShape.validator (s : BooleanShape) (policy : ConstPolicy) : Validator :=
  policy.apply s.const boolean

def BlobShape.validator (s : BlobShape) : Validator :=
  object [
    ("$type", string.withDefault (.string "blob")),
    ("mimeType", if s.accept.isEmpty then string else string.acceptMime s.accept),
    ("size", integer.coerce.bounded Validator.maximum (s.maxSize.map fun n => Binary64.ofInt n)),
    ("ref", object [
      ("$link", string.describe "content identifier of the uploaded blob")])]

/-- The length bounds apply to the encoded text. -/
def BytesShape.validator (s : BytesShape) : Validator :=
  object [("$bytes", string
    |>.bounded Validator.minLength s.minLength
    |>.bounded Validator.maxLength s.maxLength)]

def linkValidator : Validator := object [("$link", string)]

/-- The name of a token: the definition at hand or, outside every definition, the last part of
the address. -/
def Context.tokenName (ctx : Context) (a : Address) : String :=
  match ctx.current? with
  | some r => r.discriminator
  | none =>
    let key := (Text.split '.' a.toList).getLast?.getD []
    (Reference.parse (String.ofList ('#' :: key))).discriminator

def Context.tokenValidator (ctx : Context) (a : Address) : Validator :=
  string.withDefault (.string (ctx.tokenName a))

def Compile.string (ctx : Context) (s : StringShape) (a : Address) : Compile Validator := do
  for entries in s.metadata do
    recordMetadata a entries
  return s.validator ctx.constPolicy

/-- The type of a blob is filled in, so it is marked as one that is only read. -/
def Compile.blob (s : BlobShape) (a : Address) : Compile Validator := do
  recordMetadata (a.property "$type") [("readOnly", .bool true)]
  return s.validator

end Lexicon
