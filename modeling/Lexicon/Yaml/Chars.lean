/-!
# Characters of YAML texts

A text is read with one character for each line break. The separators of lines and of paragraphs
stand for themselves; every other break, be it of one or of two characters, becomes a line feed.
-/

namespace Lexicon.Yaml

/-- The characters that may occur in a text: no control characters but tabs and line breaks, and no
code points without a character. -/
def isAllowed (c : Char) : Bool :=
  let n := c.toNat
  n = 0x9 || n = 0xA || n = 0xD || (0x20 ≤ n && n ≤ 0x7E) || n = 0x85 || (0xA0 ≤ n && n ≤ 0xFFFD) ||
    0x10000 ≤ n

def unifyBreaks : List Char → List Char
  | '\r' :: '\n' :: rest => '\n' :: unifyBreaks rest
  | c :: rest => (if c = '\r' || c = '\u0085' then '\n' else c) :: unifyBreaks rest
  | [] => []

def isBreak (c : Char) : Bool := c = '\n' || c = '\u2028' || c = '\u2029'

def isBlank (c : Char) : Bool := c = ' ' || c = '\t'

def isSpace (c : Char) : Bool := isBlank c || isBreak c

def beforeSpace (cs : List Char) : Bool := cs.head?.all isSpace

def isNameChar (c : Char) : Bool := c.isAlphanum || c = '_' || c = '-'

def isFlowIndicator (c : Char) : Bool := [',', '[', ']', '{', '}'].contains c

/-- A line that begins or ends a document: three dashes or dots as a word of their own. -/
def isDocumentMark (cs : List Char) : Bool :=
  match cs with
  | '-' :: '-' :: '-' :: rest | '.' :: '.' :: '.' :: rest => beforeSpace rest
  | _ => false

def takeBreak (cs : List Char) : List Char × List Char :=
  match cs with
  | c :: rest => if isBreak c then ([c], rest) else ([], cs)
  | [] => ([], [])

def skipBlanks (cs : List Char) : List Char := cs.dropWhile isBlank

/-- Skips blanks and a comment up to the end of the line. Nothing else may stand there. -/
def restOfLine? (cs : List Char) : Option (List Char) :=
  let cs := skipBlanks cs
  let cs := if cs.head? = some '#' then cs.dropWhile (!isBreak ·) else cs
  if cs.head?.all isBreak then some (takeBreak cs).2 else none

def hexDigit? (c : Char) : Option Nat :=
  if c.isDigit then some (c.toNat - '0'.toNat)
  else if 'a' ≤ c && c ≤ 'f' then some (c.toNat - 'a'.toNat + 10)
  else if 'A' ≤ c && c ≤ 'F' then some (c.toNat - 'A'.toNat + 10)
  else none

def hexNumber? (cs : List Char) : Option Nat :=
  cs.foldlM (fun n c => (hexDigit? c).map (16 * n + ·)) 0

end Lexicon.Yaml
