import Lexicon.Text.Split

/-!
# Paths of files

A path is text with slashes between its parts. Empty parts and single dots count for nothing, except
that a slash at the beginning makes a path absolute.
-/

namespace Lexicon

abbrev Path := String

namespace Path

def parts (p : Path) : List (List Char) := Text.split '/' p.toList

def isAbsolute (p : Path) : Bool := p.toList.head? = some '/'

def join (base p : Path) : Path :=
  if p.isAbsolute || base.isEmpty then p
  else if base.toList.getLast? = some '/' then base ++ p
  else base ++ "/" ++ p

def upwards : List Char := ['.', '.']

/-- The greatest number of bytes in a name. -/
def maxNameSize : Nat := 255

def maxSize : Nat := 4095

/-- A part that counts for nothing where another one comes before it. -/
def isIdle (part : List Char) : Bool := part = [] || part = ['.']

/-- The last part, and the parts before it from the last to the first. At the beginning of a path,
an idle part counts too. -/
def lastPart? (reversed : List (List Char)) : Option (List Char × List (List Char)) :=
  match reversed with
  | [] | [[]] => none
  | [part] => some (part, [])
  | part :: rest => if isIdle part then lastPart? rest else some (part, rest)

/-- The name of a file: the last part, unless that leads upwards or nowhere. -/
def fileName? (p : Path) : Option (List Char) :=
  match lastPart? p.parts.reverse with
  | some (part, _) => if part = ['.'] || part = upwards then none else some part
  | none => none

/-- The extension of a file name: what follows its last dot. A dot at the beginning of the name is
not one of an extension. -/
def extension? (p : Path) : Option String := do
  let reversed := (← p.fileName?).reverse
  let extension := (reversed.takeWhile (· ≠ '.')).reverse
  match reversed.dropWhile (· ≠ '.') with
  | '.' :: _ :: _ => some (String.ofList extension)
  | _ => none

/-- The path without its last part and what counts for nothing before it. -/
def parent (p : Path) : Path :=
  match lastPart? p.parts.reverse with
  | none => ""
  | some (_, rest) =>
    match lastPart? rest with
    | some (part, before) =>
      String.ofList (['/'].intercalate (part :: before).reverse)
    | none => if rest.isEmpty then "" else "/"

end Path
end Lexicon
