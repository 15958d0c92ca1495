import AnyFlow.Json.Numeral
import AnyFlow.Json.Quoted

namespace AnyFlow.Json

inductive Token
  | beginArray
  | endArray
  | beginObject
  | endObject
  | colon
  | comma
  | null
  | bool (b : Bool)
  | numeral (n : Numeral)
  | text (q : Quoted)
deriving DecidableEq

namespace Token

def write : Token → List Char
  | .beginArray => ['[']
  | .endArray => [']']
  | .beginObject => ['\x7b']
  | .endObject => ['\x7d']
  | .colon => [':']
  | .comma => [',']
  | .null => ['n', 'u', 'l', 'l']
  | .bool true => ['t', 'r', 'u', 'e']
  | .bool false => ['f', 'a', 'l', 's', 'e']
  | .numeral n => n.write
  | .text q => q.write

def read : List Char → Option (Token × List Char)
  | '[' :: rest => some (.beginArray, rest)
  | ']' :: rest => some (.endArray, rest)
  | '\x7b' :: rest => some (.beginObject, rest)
  | '\x7d' :: rest => some (.endObject, rest)
  | ':' :: rest => some (.colon, rest)
  | ',' :: rest => some (.comma, rest)
  | 'n' :: 'u' :: 'l' :: 'l' :: rest => some (.null, rest)
  | 't' :: 'r' :: 'u' :: 'e' :: rest => some (.bool true, rest)
  | 'f' :: 'a' :: 'l' :: 's' :: 'e' :: rest => some (.bool false, rest)
  | '"' :: rest => (Quoted.read rest).map fun (q, rest) ↦ (.text q, rest)
  | cs => (Numeral.read cs).map fun (n, rest) ↦ (.numeral n, rest)

def isBlank (c : Char) : Bool := c = ' ' ∨ c = '\n' ∨ c = '\t' ∨ c = '\r'

def scanWithin : Nat → List Char → Option (List Token)
  | _, [] => some []
  | 0, _ :: _ => none
  | n + 1, c :: rest =>
    if isBlank c then scanWithin n rest
    else do
      let (t, rest) ← read (c :: rest)
      let ts ← scanWithin n rest
      return t :: ts

/-- The tokens of a text. Every token takes at least one character, so the length of the text
bounds their number. -/
def scan (cs : List Char) : Option (List Token) := scanWithin cs.length cs

end Token

end AnyFlow.Json
