import Lexicon.Json.Basic
import Lexicon.Binary64

/-!
# Reading JSON text

Readers take the characters that are left and return what they read with the characters after it.
`value` keeps what it reads and bounds the nesting of arrays and objects; `skipValue` only finds
the end of a value, without bounding its nesting or the size of its numbers.

A number keeps the digits of its literal while they fit 64 bits. It is an integer when the
literal has neither point nor exponent and fits a signed or an unsigned 64-bit word; otherwise it
is the double nearest to those digits, multiplied or divided once by a power of ten.
-/

namespace Lexicon

inductive TextError where
  | malformed
  | unfinished
  deriving DecidableEq, Repr

namespace Json.Reader

def isBlank (c : Char) : Bool := c = ' ' || c = '\n' || c = '\t' || c = '\r'

def skipBlanks (cs : List Char) : List Char := cs.dropWhile isBlank

def word : List Char → List Char → Except TextError (List Char)
  | [], cs => .ok cs
  | _, [] => .error .unfinished
  | w :: ws, c :: cs => if c = w then word ws cs else .error .malformed

def digit (c : Char) : Nat := c.toNat - '0'.toNat

def hexDigit? (c : Char) : Option Nat :=
  if c.isDigit then some (digit c)
  else if 'a' ≤ c && c ≤ 'f' then some (c.toNat - 'a'.toNat + 10)
  else if 'A' ≤ c && c ≤ 'F' then some (c.toNat - 'A'.toNat + 10)
  else none

def hex? (a b c d : Char) : Option Nat := do
  return (((← hexDigit? a) * 16 + (← hexDigit? b)) * 16 + (← hexDigit? c)) * 16 + (← hexDigit? d)

/-- What is wrong where fewer than four characters follow the mark of a code unit: four bytes of
other text are malformed, fewer are an early end. -/
def shortCodeUnit (cs : List Char) : TextError :=
  if 4 ≤ (cs.map Char.utf8Size).foldr (· + ·) 0 then .malformed else .unfinished

def isLeadingSurrogate (n : Nat) : Bool := 0xD800 ≤ n && n < 0xDC00

def isTrailingSurrogate (n : Nat) : Bool := 0xDC00 ≤ n && n < 0xE000

def simpleEscape? : Char → Option Char
  | '"' => some '"'
  | '\\' => some '\\'
  | '/' => some '/'
  | 'b' => some '\x08'
  | 'f' => some '\x0c'
  | 'n' => some '\n'
  | 'r' => some '\r'
  | 't' => some '\t'
  | _ => none

/-- The characters up to the closing quote. Surrogate code units have to come in pairs. -/
def stringBody : List Char → Except TextError (List Char × List Char)
  | [] => .error .unfinished
  | '"' :: rest => .ok ([], rest)
  | '\\' :: [] => .error .unfinished
  | '\\' :: 'u' :: a :: b :: c :: d :: rest =>
    match hex? a b c d with
    | none => .error .malformed
    | some n =>
      if isTrailingSurrogate n then .error .malformed
      else if isLeadingSurrogate n then
        match rest with
        | [] => .error .unfinished
        | '\\' :: [] => .error .unfinished
        | '\\' :: 'u' :: e :: f :: g :: h :: rest =>
          match hex? e f g h with
          | none => .error .malformed
          | some m =>
            if isTrailingSurrogate m then do
              let (s, rest) ← stringBody rest
              return (Char.ofNat (0x10000 + (n - 0xD800) * 0x400 + (m - 0xDC00)) :: s, rest)
            else .error .malformed
        | '\\' :: 'u' :: short => .error (shortCodeUnit short)
        | _ => .error .malformed
      else do
        let (s, rest) ← stringBody rest
        return (Char.ofNat n :: s, rest)
  | '\\' :: 'u' :: short => .error (shortCodeUnit short)
  | '\\' :: c :: rest =>
    match simpleEscape? c with
    | none => .error .malformed
    | some c => do
      let (s, rest) ← stringBody rest
      return (c :: s, rest)
  | c :: rest =>
    if c.toNat < 32 then .error .malformed
    else do
      let (s, rest) ← stringBody rest
      return (c :: s, rest)

/-- The characters after the closing quote. Surrogate code units may stand alone. -/
def skipString : List Char → Except TextError (List Char)
  | [] => .error .unfinished
  | '"' :: rest => .ok rest
  | '\\' :: [] => .error .unfinished
  | '\\' :: 'u' :: a :: b :: c :: d :: rest =>
    if (hex? a b c d).isSome then skipString rest else .error .malformed
  | '\\' :: 'u' :: short => .error (shortCodeUnit short)
  | '\\' :: c :: rest => if (simpleEscape? c).isSome then skipString rest else .error .malformed
  | c :: rest => if c.toNat < 32 then .error .malformed else skipString rest

/-- Takes digits as long as the number they form fits 64 bits, and counts them. -/
def takeFitting (significand count : Nat) : List Char → Nat × Nat × List Char
  | [] => (significand, count, [])
  | c :: rest =>
    if c.isDigit && significand * 10 + digit c < Word.size 64 then
      takeFitting (significand * 10 + digit c) (count + 1) rest
    else (significand, count, c :: rest)

def dropDigits (cs : List Char) : Nat × List Char :=
  ((cs.takeWhile Char.isDigit).length, cs.dropWhile Char.isDigit)

/-- The number `x * 10 ^ exponent`, with one rounding for each power of ten up to the 308th. Three
steps bring every 64-bit number down to zero. -/
def scale (x : Binary64) (exponent : Int) : Nat → Option Binary64
  | 0 => some ⟨false, 0⟩
  | steps + 1 =>
    if x.units = 0 then some x
    else if 308 < exponent then none
    else if 0 ≤ exponent then x.mul? (.powerOfTen exponent.toNat)
    else if -308 ≤ exponent then x.div? (.powerOfTen (-exponent).toNat)
    else match x.div? (.powerOfTen 308) with
      | some y => scale y (exponent + 308) steps
      | none => none

def floatOf (negative : Bool) (significand : Nat) (exponent : Int) (rest : List Char) :
    Except TextError (Number × List Char) :=
  match scale (.ofInt significand) exponent 4 with
  | some x => .ok (.float (if negative then x.neg else x), rest)
  | none => .error .malformed

def exponentPart (negative : Bool) (significand : Nat) (exponent : Int) (cs : List Char) :
    Except TextError (Number × List Char) :=
  let (down, digits) := match cs with
    | '+' :: rest => (false, rest)
    | '-' :: rest => (true, rest)
    | _ => (false, cs)
  match digits with
  | [] => .error .unfinished
  | c :: _ =>
    if !c.isDigit then .error .malformed
    else
      let shown := digits.takeWhile Char.isDigit
      let n : Int := shown.foldl (fun acc c => acc * 10 + digit c) 0
      floatOf negative significand (if down then exponent - n else exponent + n)
        (digits.dropWhile Char.isDigit)

def fractionPart (negative : Bool) (significand : Nat) (exponent : Int) (cs : List Char) :
    Except TextError (Number × List Char) :=
  match cs with
  | [] => .error .unfinished
  | c :: _ =>
    if !c.isDigit then .error .malformed
    else
      let (significand, count, rest) := takeFitting significand 0 cs
      match (dropDigits rest).2 with
      | 'e' :: rest | 'E' :: rest => exponentPart negative significand (exponent - count) rest
      | rest => floatOf negative significand (exponent - count) rest

/-- A negative integer that fits no signed word, and negative zero, are doubles. -/
def integerOf (negative : Bool) (significand : Nat) : Number :=
  if negative then
    if 0 < significand ∧ significand ≤ Word.size 63 then .integer (-(significand : Int))
    else .float (.neg (.ofInt significand))
  else .integer significand

def unsignedNumber (negative : Bool) (cs : List Char) : Except TextError (Number × List Char) :=
  match cs with
  | [] => .error .unfinished
  | c :: rest =>
    if !c.isDigit then .error .malformed
    else if c = '0' && (rest.head?.any Char.isDigit) then .error .malformed
    else
      let (significand, _, rest) := takeFitting 0 0 cs
      let (dropped, rest) := dropDigits rest
      match rest with
      | '.' :: rest => fractionPart negative significand dropped rest
      | 'e' :: rest | 'E' :: rest => exponentPart negative significand dropped rest
      | rest =>
        if dropped = 0 then .ok (integerOf negative significand, rest)
        else floatOf negative significand dropped rest

def number (cs : List Char) : Except TextError (Number × List Char) :=
  match cs with
  | '-' :: rest => unsignedNumber true rest
  | _ => unsignedNumber false cs

/-- The characters after a number. An early end is malformed here. -/
def skipNumber (cs : List Char) : Except TextError (List Char) :=
  let exponent (cs : List Char) : Except TextError (List Char) :=
    let digits := match cs with
      | '+' :: rest | '-' :: rest => rest
      | _ => cs
    if digits.head?.any Char.isDigit then .ok (dropDigits digits).2 else .error .malformed
  let unsigned := match cs with
    | '-' :: rest => rest
    | _ => cs
  match dropDigits unsigned with
  | (0, _) => .error .malformed
  | (count, rest) =>
    if unsigned.head? = some '0' ∧ count ≠ 1 then .error .malformed
    else match rest with
      | '.' :: rest =>
        match dropDigits rest with
        | (0, _) => .error .malformed
        | (_, 'e' :: rest) | (_, 'E' :: rest) => exponent rest
        | (_, rest) => .ok rest
      | 'e' :: rest | 'E' :: rest => exponent rest
      | _ => .ok rest

def colon (cs : List Char) : Except TextError (List Char) :=
  match skipBlanks cs with
  | [] => .error .unfinished
  | ':' :: rest => .ok rest
  | _ => .error .malformed

inductive Next where
  | ended (rest : List Char)
  | item (cs : List Char)

def nextItem (closing : Char) (first : Bool) (cs : List Char) : Except TextError Next :=
  match skipBlanks cs with
  | [] => .error .unfinished
  | c :: rest =>
    if c = closing then .ok (.ended rest)
    else if first then .ok (.item (c :: rest))
    else if c = ',' then
      match skipBlanks rest with
      | [] => .error .unfinished
      | c :: rest => if c = closing then .error .malformed else .ok (.item (c :: rest))
    else .error .malformed

def key (cs : List Char) : Except TextError (String × List Char) :=
  match cs with
  | '"' :: rest => do
    let (name, rest) ← stringBody rest
    return (String.ofList name, ← colon rest)
  | _ => .error .malformed

mutual

/-- A value with at most `depth` levels of arrays and objects. Objects keep the fields as they are
written, with repeated keys. -/
def value (room depth : Nat) (cs : List Char) : Except TextError (Json × List Char) :=
  match room with
  | 0 => .error .malformed
  | room + 1 =>
    match skipBlanks cs with
    | [] => .error .unfinished
    | 'n' :: rest => do return (.null, ← word ['u', 'l', 'l'] rest)
    | 't' :: rest => do return (.bool true, ← word ['r', 'u', 'e'] rest)
    | 'f' :: rest => do return (.bool false, ← word ['a', 'l', 's', 'e'] rest)
    | '"' :: rest => do
      let (s, rest) ← stringBody rest
      return (.string (String.ofList s), rest)
    | '[' :: rest =>
      match depth with
      | 0 => .error .malformed
      | depth + 1 => do
        let (elements, rest) ← elements room depth true rest
        return (.array elements, rest)
    | '{' :: rest =>
      match depth with
      | 0 => .error .malformed
      | depth + 1 => do
        let (fields, rest) ← fields room depth true rest
        return (.object fields, rest)
    | c :: rest =>
      if c = '-' || c.isDigit then do
        let (n, rest) ← number (c :: rest)
        return (.number n, rest)
      else .error .malformed

def elements (room depth : Nat) (first : Bool) (cs : List Char) :
    Except TextError (List Json × List Char) :=
  match room with
  | 0 => .error .malformed
  | room + 1 => do
    match ← nextItem ']' first cs with
    | .ended rest => return ([], rest)
    | .item item =>
      let (x, rest) ← value room depth item
      let (xs, rest) ← elements room depth false rest
      return (x :: xs, rest)

def fields (room depth : Nat) (first : Bool) (cs : List Char) :
    Except TextError (List (String × Json) × List Char) :=
  match room with
  | 0 => .error .malformed
  | room + 1 => do
    match ← nextItem '}' first cs with
    | .ended rest => return ([], rest)
    | .item item =>
      let (name, rest) ← key item
      let (x, rest) ← value room depth rest
      let (fields, rest) ← fields room depth false rest
      return ((name, x) :: fields, rest)

end

mutual

def skipValue (room : Nat) (cs : List Char) : Except TextError (List Char) :=
  match room with
  | 0 => .error .malformed
  | room + 1 =>
    match skipBlanks cs with
    | [] => .error .unfinished
    | 'n' :: rest => word ['u', 'l', 'l'] rest
    | 't' :: rest => word ['r', 'u', 'e'] rest
    | 'f' :: rest => word ['a', 'l', 's', 'e'] rest
    | '"' :: rest => skipString rest
    | '[' :: rest => skipItems room ']' true rest
    | '{' :: rest => skipItems room '}' true rest
    | c :: rest => if c = '-' || c.isDigit then skipNumber (c :: rest) else .error .malformed

def skipItems (room : Nat) (closing : Char) (first : Bool) (cs : List Char) :
    Except TextError (List Char) :=
  match room with
  | 0 => .error .malformed
  | room + 1 => do
    match ← nextItem closing first cs with
    | .ended rest => return rest
    | .item item =>
      let item ← if closing = '}' then
          match item with
          | '"' :: rest => do colon (← skipString rest)
          | _ => .error .malformed
        else .ok item
      let rest ← skipValue room item
      skipItems room closing false rest

end

/-- Room enough for every call of a reader on the text: each level and each item takes a
character. -/
def roomFor (cs : List Char) : Nat := 2 * cs.length + 2

def ended (cs : List Char) : Except TextError Unit :=
  match skipBlanks cs with
  | [] => .ok ()
  | _ => .error .malformed

end Json.Reader

namespace Json

def maxDepth : Nat := 127

def parseWritten (text : String) (depth : Nat) : Except TextError Json := do
  let cs := text.toList
  let (x, rest) ← Reader.value (Reader.roomFor cs) depth cs
  Reader.ended rest
  return x

def parse (text : String) (depth : Nat) : Except TextError Json :=
  (parseWritten text depth).map merged

end Json
end Lexicon
