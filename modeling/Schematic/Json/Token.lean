import Schematic.Hex
import Schematic.Json.Numeral

namespace Schematic.Json

inductive Token
  | openArray
  | closeArray
  | openObject
  | closeObject
  | comma
  | colon
  | value (json : Json)
  | text (value : String)

namespace Token

def isBlank (c : Char) : Bool := c == ' ' || c == '\t' || c == '\n' || c == '\r'

def escape? : Char → Option Char
  | '"' => some '"'
  | '\\' => some '\\'
  | '/' => some '/'
  | 'b' => some '\x08'
  | 'f' => some '\x0c'
  | 'n' => some '\n'
  | 'r' => some '\r'
  | 't' => some '\t'
  | _ => none

def surrogates? (high low : Nat) : Option Char :=
  if 0xd800 ≤ high ∧ high < 0xdc00 ∧ 0xdc00 ≤ low ∧ low < 0xe000 then
    some (Char.ofNat (0x10000 + (high - 0xd800) * 0x400 + (low - 0xdc00)))
  else none

def unit? (code : Nat) : Option Char :=
  if 0xd800 ≤ code ∧ code < 0xe000 then none else some (Char.ofNat code)

/-- Control characters may not stand in a string, and a half of a surrogate pair not without the
other half. -/
def character? : List Char → Option (Char × List Char)
  | '\\' :: 'u' :: a :: b :: c :: d :: rest => do
      let code ← Hex.value? [a, b, c, d]
      match unit? code, rest with
      | some x, rest => return (x, rest)
      | none, '\\' :: 'u' :: e :: f :: g :: h :: rest =>
          let low ← Hex.value? [e, f, g, h]
          let x ← surrogates? code low
          return (x, rest)
      | none, _ => none
  | '\\' :: c :: rest => do
      let x ← escape? c
      return (x, rest)
  | c :: rest => if c.toNat < 0x20 then none else some (c, rest)
  | [] => none

def string? : Nat → List Char → Option (List Char × List Char)
  | 0, _ => none
  | _, '"' :: rest => some ([], rest)
  | bound + 1, cs => do
      let (x, rest) ← character? cs
      let (xs, rest) ← string? bound rest
      return (x :: xs, rest)

def next? : List Char → Option (Token × List Char)
  | '[' :: rest => some (.openArray, rest)
  | ']' :: rest => some (.closeArray, rest)
  | '\x7b' :: rest => some (.openObject, rest)
  | '\x7d' :: rest => some (.closeObject, rest)
  | ',' :: rest => some (.comma, rest)
  | ':' :: rest => some (.colon, rest)
  | 'n' :: 'u' :: 'l' :: 'l' :: rest => some (.value .null, rest)
  | 't' :: 'r' :: 'u' :: 'e' :: rest => some (.value (.bool true), rest)
  | 'f' :: 'a' :: 'l' :: 's' :: 'e' :: rest => some (.value (.bool false), rest)
  | '"' :: rest => do
      let (xs, rest) ← string? rest.length rest
      return (.text (String.ofList xs), rest)
  | cs => do
      let (json, rest) ← Numeral.read? cs
      return (.value json, rest)

/-- The tokens of a text; `bound` is at least the number of its characters. -/
def scan : Nat → List Char → Option (List Token)
  | _, [] => some []
  | 0, _ => none
  | bound + 1, c :: cs =>
      if isBlank c then scan bound cs
      else do
        let (token, rest) ← next? (c :: cs)
        let tokens ← scan bound rest
        return token :: tokens

end Token

def tokens? (text : String) : Option (List Token) :=
  Token.scan text.toList.length text.toList

end Schematic.Json
