import Lexicon.Binary64
import Lexicon.Text.Split

/-!
# Reading finite doubles

`ofLiteral?` reads a decimal number: a sign, digits with a point somewhere among or around them,
and an exponent, each but the digits optional. It gives the nearest double, and nothing for other
text and for numbers that are too large. `ofText?` ignores the blanks around a number.
-/

namespace Lexicon.Binary64

def digitsValue (cs : List Char) : Nat :=
  cs.foldl (fun acc c => acc * 10 + (c.toNat - '0'.toNat)) 0

def exponent? (cs : List Char) : Option Int :=
  let (down, digits) := match cs with
    | '-' :: rest => (true, rest)
    | '+' :: rest => (false, rest)
    | _ => (false, cs)
  if digits ≠ [] ∧ digits.all Char.isDigit then
    some (if down then -(digitsValue digits : Int) else digitsValue digits)
  else none

def magnitude? (negative : Bool) (cs : List Char) : Option Binary64 :=
  let whole := cs.takeWhile Char.isDigit
  let (fraction, rest) := match cs.dropWhile Char.isDigit with
    | '.' :: rest => (rest.takeWhile Char.isDigit, rest.dropWhile Char.isDigit)
    | rest => ([], rest)
  let scaled (exponent : Int) :=
    ofDecimal? negative (digitsValue (whole ++ fraction)) (exponent - fraction.length)
  if whole = [] ∧ fraction = [] then none
  else match rest with
    | [] => scaled 0
    | c :: rest => if c = 'e' ∨ c = 'E' then (exponent? rest).bind scaled else none

def ofLiteral? (cs : List Char) : Option Binary64 :=
  match cs with
  | '-' :: rest => magnitude? true rest
  | '+' :: rest => magnitude? false rest
  | _ => magnitude? false cs

def ofText? (s : String) : Option Binary64 := ofLiteral? (Text.trim s.toList)

end Lexicon.Binary64
