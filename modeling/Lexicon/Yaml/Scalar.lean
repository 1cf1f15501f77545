import Lexicon.Yaml.Chars

/-!
# Scalars of YAML texts

The text of a scalar is not what stands in the document: lines are folded and quotes and escapes
removed. `single?` and `double?` read scalars after their opening quote, `plain?` reads one without
quotes, and `block?` reads the lines after a block indicator.
-/

namespace Lexicon.Yaml

inductive Piece where
  | char (c : Char)
  | space (c : Char)
  /-- A line break that was escaped: it and the blanks around it leave no trace. -/
  | joint

def Piece.ofChar (c : Char) : Piece := if isSpace c then .space c else .char c

def leadingSpaces : List Piece → List Char
  | .space c :: rest => c :: leadingSpaces rest
  | _ => []

/-- What spaces between words stand for: as they are if they hold no line break, one blank for a
single line break, and otherwise the line breaks less the first. -/
def foldSpaces (spaces : List Char) : List Char :=
  match spaces.filter isBreak with
  | [] => spaces
  | ['\n'] => [' ']
  | '\n' :: breaks => breaks
  | breaks => breaks

/-- The text of pieces, their lines folded. `skip` spaces of them are dealt with already. -/
def foldPieces (skip : Nat) : List Piece → List Char
  | [] => []
  | .char c :: rest => c :: foldPieces 0 rest
  | .joint :: rest =>
    let spaces := leadingSpaces rest
    spaces.filter isBreak ++ foldPieces spaces.length rest
  | .space c :: rest =>
    match skip with
    | 0 =>
      let spaces := c :: leadingSpaces rest
      foldSpaces spaces ++ foldPieces (spaces.length - 1) rest
    | skip + 1 => foldPieces skip rest

def andPiece (p : Piece) (read : Option (List Piece × List Char)) :
    Option (List Piece × List Char) :=
  read.map fun (pieces, rest) => (p :: pieces, rest)

/-- A line of a quoted scalar must not look like a mark between documents. -/
def entersMark (c : Char) (rest : List Char) : Bool := isBreak c && isDocumentMark rest

def singlePieces : List Char → Option (List Piece × List Char)
  | [] => none
  | '\'' :: '\'' :: rest => andPiece (.char '\'') (singlePieces rest)
  | '\'' :: rest => some ([], rest)
  | c :: rest => if entersMark c rest then none else andPiece (.ofChar c) (singlePieces rest)

def shortEscape? (c : Char) : Option Char :=
  match c with
  | '0' => some '\x00'
  | 'a' => some '\x07'
  | 'b' => some '\x08'
  | 't' | '\t' => some '\t'
  | 'n' => some '\n'
  | 'v' => some '\x0B'
  | 'f' => some '\x0C'
  | 'r' => some '\r'
  | 'e' => some '\x1B'
  | ' ' => some ' '
  | '"' => some '"'
  | '/' => some '/'
  | '\\' => some '\\'
  | 'N' => some '\u0085'
  | '_' => some '\u00A0'
  | 'L' => some '\u2028'
  | 'P' => some '\u2029'
  | _ => none

def escapeWidth? (c : Char) : Option Nat :=
  match c with
  | 'x' => some 2
  | 'u' => some 4
  | 'U' => some 8
  | _ => none

def charOf? (n : Nat) : Option Char := if n.isValidChar then some (Char.ofNat n) else none

def longEscape? (width : Nat) (cs : List Char) : Option Char :=
  if (cs.take width).length = width then (hexNumber? (cs.take width)).bind charOf? else none

/-- The pieces of a double-quoted scalar; `skip` characters are dealt with already. -/
def doublePieces (skip : Nat) : List Char → Option (List Piece × List Char)
  | [] => none
  | c :: rest =>
    match skip with
    | skip + 1 => doublePieces skip rest
    | 0 =>
      if c = '"' then some ([], rest)
      else if c = '\\' then
        match rest with
        | [] => none
        | e :: after =>
          if isBreak e then
            if isDocumentMark after then none else andPiece .joint (doublePieces 1 rest)
          else match shortEscape? e, escapeWidth? e with
            | some x, _ => andPiece (.char x) (doublePieces 1 rest)
            | none, some width =>
              match longEscape? width after with
              | some x => andPiece (.char x) (doublePieces (width + 1) rest)
              | none => none
            | none, none => none
      else if entersMark c rest then none
      else andPiece (.ofChar c) (doublePieces 0 rest)

def foldRead (read : Option (List Piece × List Char)) : Option (List Char × List Char) :=
  read.map fun (pieces, rest) => (foldPieces 0 pieces, rest)

def single? (cs : List Char) : Option (List Char × List Char) := foldRead (singlePieces cs)

def double? (cs : List Char) : Option (List Char × List Char) := foldRead (doublePieces 0 cs)

/-- A word of a plain scalar. A colon before a space ends it and, inside flow collections, so do
their indicators; a colon right before one of them is refused there. -/
def plainWord (inFlow : Bool) : List Char → Option (List Char × List Char)
  | [] => some ([], [])
  | c :: rest =>
    if isSpace c || (c = ':' && beforeSpace rest) || (inFlow && isFlowIndicator c) then
      some ([], c :: rest)
    else if inFlow && c = ':' && rest.head?.any (fun d => d = '?' || isFlowIndicator d) then none
    else (plainWord inFlow rest).map fun (word, rest) => (c :: word, rest)

def columnAfter (spaces : List Char) : Nat := (spaces.reverse.takeWhile (!isBreak ·)).length

/-- A tab stands where the lines of a scalar have to be indented. `column?` is the column in the
line, once there was a line break. -/
def hasTabInIndent (indent : Nat) (column? : Option Nat) : List Char → Bool
  | [] => false
  | c :: rest =>
    if isBreak c then hasTabInIndent indent (some 0) rest
    else (c = '\t' && column?.any (· < indent)) ||
      hasTabInIndent indent (column?.map (· + 1)) rest

structure Plain where
  text : List Char
  rest : List Char
  /-- The spaces after the scalar hold a line break. -/
  endsLine : Bool

/-- Reads a plain scalar whose further lines are indented by at least `indent`, outside flow
collections. A comment ends it, and so does a mark between documents. -/
def plainFrom (inFlow : Bool) (indent : Nat) : Nat → List Char → Option Plain
  | 0, _ => none
  | room + 1, cs => do
    let (word, after) ← plainWord inFlow cs
    let spaces := after.takeWhile isSpace
    let rest := after.dropWhile isSpace
    let endsLine := spaces.any isBreak
    let column := columnAfter spaces
    if spaces.isEmpty then return ⟨word, rest, false⟩
    else if hasTabInIndent indent none spaces then none
    else if (!inFlow && endsLine && column < indent) || rest.head? = some '#' ||
        (endsLine && column = 0 && isDocumentMark rest) then
      return ⟨word, rest, endsLine⟩
    else
      let next ← plainFrom inFlow indent room rest
      if next.text.isEmpty then return ⟨word, rest, endsLine⟩
      else return { next with text := word ++ foldSpaces spaces ++ next.text }

def plain? (inFlow : Bool) (indent : Nat) (cs : List Char) : Option Plain :=
  plainFrom inFlow indent (cs.length + 1) cs

inductive Chomping where
  | strip
  /-- One line break is kept. -/
  | clip
  | keep
  deriving DecidableEq

/-- The header of a block scalar: the way its end is chomped, and how much deeper than its parent
it is indented, if the header says so. -/
structure BlockHeader where
  chomping : Chomping := .clip
  indent? : Option Nat := none

def chomping? (c : Char) : Option Chomping :=
  match c with
  | '+' => some .keep
  | '-' => some .strip
  | _ => none

/-- An indentation of nothing is not accepted. -/
def indentDigit? (c : Char) : Option Nat :=
  if c.isDigit && c ≠ '0' then some (c.toNat - '0'.toNat) else none

/-- Reads the header and the end of its line: a digit and a sign in either order, each at most
once. -/
def blockHeader? (cs : List Char) : Option (BlockHeader × List Char) := do
  let sign := fun (cs : List Char) => cs.head?.bind chomping?
  let digit := fun (cs : List Char) => cs.head?.bind indentDigit?
  let (header, rest) : BlockHeader × List Char :=
    match sign cs, digit cs with
    | some chomping, _ => ({ chomping, indent? := digit cs.tail }, cs.tail)
    | none, some n => ({ chomping := (sign cs.tail).getD .clip, indent? := some n }, cs.tail)
    | none, none => ({}, cs)
  let both :=
    (sign cs).isSome && (digit cs.tail).isSome || (digit cs).isSome && (sign cs.tail).isSome
  let rest ← restOfLine? (if both then rest.tail else rest)
  return (header, rest)

structure BlockGap where
  breaks : List Char
  /-- The greatest indentation met. -/
  deepest : Nat
  column : Nat
  rest : List Char

/-- Reads empty lines. No more blanks than the indentation, if that is known, are taken from a line,
and a tab must not stand among them. -/
def blockGap? (indent? : Option Nat) (column : Nat) : List Char → Option BlockGap
  | [] => some ⟨[], column, column, []⟩
  | c :: rest =>
    let inIndent := indent?.all (column < ·)
    if c = ' ' && inIndent then blockGap? indent? (column + 1) rest
    else if c = '\t' && inIndent then none
    else if isBreak c then
      (blockGap? indent? 0 rest).map fun gap =>
        { gap with breaks := c :: gap.breaks, deepest := max column gap.deepest }
    else some ⟨[], column, column, c :: rest⟩

/-- The line breaks between two lines of a block scalar. A folded one turns a single line feed
between lines that begin with no blank into a blank, and leaves it out before empty lines. -/
def blockJoint (folded : Bool) (previous : List Char) (breaks empty next : List Char) : List Char :=
  let indented (line : List Char) : Bool := line.head?.any isBlank
  if folded && breaks = ['\n'] && !indented previous && !indented next then
    if empty.isEmpty then [' '] else empty
  else breaks ++ empty

/-- Reads the lines with the indentation of a block scalar. `previous` is the line before, `breaks`
the break that ends it, and the gap holds what follows. -/
def blockLines (folded : Bool) (chomping : Chomping) (indent : Nat) :
    Nat → (previous breaks : List Char) → BlockGap → Option (List Char × List Char)
  | 0, _, _, _ => none
  | room + 1, previous, breaks, gap =>
    if gap.column ≠ indent || gap.rest.isEmpty then
      let ending := match chomping with
        | .strip => []
        | .clip => breaks
        | .keep => breaks ++ gap.breaks
      some (ending, gap.rest)
    else do
      let line := gap.rest.takeWhile (!isBreak ·)
      let (ended, rest) := takeBreak (gap.rest.dropWhile (!isBreak ·))
      let (text, rest) ← blockLines folded chomping indent room line ended
        (← blockGap? (some indent) 0 rest)
      return (blockJoint folded previous breaks gap.breaks line ++ line ++ text, rest)

/-- Reads a block scalar after its indicator. It is indented more than `outer`, the number of
columns before the contents of its parent; without a word in the header, as much as its first
line. -/
def block? (folded : Bool) (outer : Nat) (cs : List Char) : Option (List Char × List Char) := do
  let (header, rest) ← blockHeader? cs
  let stated := header.indent?.map fun n => outer - 1 + n
  let gap ← blockGap? stated 0 rest
  let indent := stated.getD (max gap.deepest (max outer 1))
  blockLines folded header.chomping indent (rest.length + 1) [] [] gap

end Lexicon.Yaml
