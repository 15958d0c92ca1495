namespace AnyFlow.Json

def shortEscape? : Char → Option Char
  | '"' => some '"'
  | '\\' => some '\\'
  | '\x08' => some 'b'
  | '\x0c' => some 'f'
  | '\n' => some 'n'
  | '\r' => some 'r'
  | '\t' => some 't'
  | _ => none

/-- A solidus may be escaped and never has to be. -/
def ofShortEscape? : Char → Option Char
  | '"' => some '"'
  | '\\' => some '\\'
  | '/' => some '/'
  | 'b' => some '\x08'
  | 'f' => some '\x0c'
  | 'n' => some '\n'
  | 'r' => some '\r'
  | 't' => some '\t'
  | _ => none

def IsPlain (c : Char) : Prop := ' ' ≤ c ∨ (shortEscape? c).isSome

instance (c : Char) : Decidable (IsPlain c) := inferInstanceAs (Decidable (_ ∨ _))

/-- A character, or a `\u` escape of a 16-bit unit. So a string may hold a lone surrogate, and then
it has no text. -/
inductive Piece
  | char (c : Char) (plain : IsPlain c)
  | unit (u : UInt16)
deriving DecidableEq

abbrev Quoted := List Piece

namespace Piece

/-- A control character without a short escape is written as a unit. -/
def ofChar (c : Char) : Piece :=
  if h : IsPlain c then .char c h else .unit c.toNat.toUInt16

def hexDigit (n : Nat) : Char := Nat.digitChar (n % 16)

def ofHexDigit? (c : Char) : Option Nat :=
  if c.isDigit then some (c.toNat - '0'.toNat)
  else if 'a' ≤ c ∧ c ≤ 'f' then some (c.toNat - 'a'.toNat + 10)
  else if 'A' ≤ c ∧ c ≤ 'F' then some (c.toNat - 'A'.toNat + 10)
  else none

def write : Piece → List Char
  | .char c _ => match shortEscape? c with
    | some e => ['\\', e]
    | none => [c]
  | .unit u =>
    let n := u.toNat
    ['\\', 'u', hexDigit (n / 4096), hexDigit (n / 256), hexDigit (n / 16), hexDigit n]

end Piece

namespace Quoted

def ofText (s : String) : Quoted := s.toList.map Piece.ofChar

def pairChar (hi lo : Nat) : Char := Char.ofNat (0x10000 + (hi - 0xD800) * 0x400 + (lo - 0xDC00))

/-- Joins surrogate pairs; a surrogate outside a pair has no character. -/
def chars? : Quoted → Option (List Char)
  | [] => some []
  | .char c _ :: rest => (chars? rest).map (c :: ·)
  | .unit u :: rest =>
    let n := u.toNat
    if n < 0xD800 ∨ 0xDFFF < n then (chars? rest).map (Char.ofNat n :: ·)
    else if n < 0xDC00 then match rest with
      | .unit v :: rest =>
        if 0xDC00 ≤ v.toNat ∧ v.toNat ≤ 0xDFFF then
          (chars? rest).map (pairChar n v.toNat :: ·)
        else none
      | _ => none
    else none

def text? (q : Quoted) : Option String := (chars? q).map String.ofList

def write (q : Quoted) : List Char := '"' :: q.flatMap Piece.write ++ ['"']

/-- Reads the rest of a string whose opening quotation mark is already taken, up to and with the
closing one. -/
def read : List Char → Option (Quoted × List Char)
  | [] => none
  | '"' :: rest => some ([], rest)
  | '\\' :: 'u' :: a :: b :: c :: d :: rest => do
    let a ← Piece.ofHexDigit? a
    let b ← Piece.ofHexDigit? b
    let c ← Piece.ofHexDigit? c
    let d ← Piece.ofHexDigit? d
    let (q, rest) ← read rest
    return (.unit (a * 4096 + b * 256 + c * 16 + d).toUInt16 :: q, rest)
  | '\\' :: e :: rest => do
    let c ← ofShortEscape? e
    let (q, rest) ← read rest
    return (.ofChar c :: q, rest)
  | c :: rest => do
    let (q, rest) ← read rest
    if ' ' ≤ c then return (.ofChar c :: q, rest) else none

def unescaped? (q : Quoted) : Option (List Char) :=
  q.mapM fun
    | .char c _ => if (shortEscape? c).isNone then some c else none
    | .unit _ => none

end Quoted

end AnyFlow.Json
