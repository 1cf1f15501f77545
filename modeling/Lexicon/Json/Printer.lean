import Lexicon.Binary64.Digits
import Lexicon.Json.Basic

/-!
# JSON text

`compact` writes a value without blanks; `pretty` puts every element and field on a line of its
own, indented by two spaces a level, and leaves empty arrays and objects closed. Fields are
written in their order.
-/

namespace Lexicon

def Number.text : Number → String
  | .integer n => toString n
  | .float x => x.text .json

namespace Json

/-- Control characters below the space, the quote and the backslash are escaped; every other
character is written as it is. -/
def escapeChar (c : Char) : List Char :=
  if c = '"' then ['\\', '"']
  else if c = '\\' then ['\\', '\\']
  else if c = '\n' then ['\\', 'n']
  else if c = '\r' then ['\\', 'r']
  else if c = '\t' then ['\\', 't']
  else if c = '\x08' then ['\\', 'b']
  else if c = '\x0c' then ['\\', 'f']
  else if c.toNat < 32 then
    ['\\', 'u', '0', '0', Nat.digitChar (c.toNat / 16), Nat.digitChar (c.toNat % 16)]
  else [c]

def quote (s : String) : String :=
  String.ofList ('"' :: s.toList.flatMap escapeChar ++ ['"'])

mutual

def compact : Json → String
  | null => "null"
  | bool b => if b then "true" else "false"
  | number n => n.text
  | string s => quote s
  | array elements => "[" ++ ",".intercalate (compactElements elements) ++ "]"
  | object fields => "\x7b" ++ ",".intercalate (compactFields fields) ++ "\x7d"

def compactElements : List Json → List String
  | [] => []
  | x :: rest => x.compact :: compactElements rest

def compactFields : List (String × Json) → List String
  | [] => []
  | (key, x) :: rest => (quote key ++ ":" ++ x.compact) :: compactFields rest

end

def block (opening closing : String) (level : Nat) (items : List String) : String :=
  if items.isEmpty then opening ++ closing
  else
    let margin := String.ofList (List.replicate (2 * level) ' ')
    opening ++ "\n" ++ ",\n".intercalate (items.map fun item => margin ++ "  " ++ item) ++
      "\n" ++ margin ++ closing

mutual

def prettyAt (level : Nat) : Json → String
  | array elements => block "[" "]" level (prettyElements (level + 1) elements)
  | object fields => block "\x7b" "\x7d" level (prettyFields (level + 1) fields)
  | null => "null"
  | bool b => if b then "true" else "false"
  | number n => n.text
  | string s => quote s

def prettyElements (level : Nat) : List Json → List String
  | [] => []
  | x :: rest => x.prettyAt level :: prettyElements level rest

def prettyFields (level : Nat) : List (String × Json) → List String
  | [] => []
  | (key, x) :: rest => (quote key ++ ": " ++ x.prettyAt level) :: prettyFields level rest

end

def pretty (x : Json) : String := x.prettyAt 0

end Json
end Lexicon
