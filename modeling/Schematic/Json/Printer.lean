import Schematic.Binary64.Text
import Schematic.Hex
import Schematic.Json.Basic

namespace Schematic.Json

/-- The exponent is written, with its sign, for numbers below `10 ^ (-5)` and from `10 ^ 16` on. -/
def numberLayout : NumberLayout where
  tie := .toEven
  positional e := decide (-5 ≤ e) && decide (e < 16)
  afterWhole := ".0"
  exponentMark negative := if negative then "e-" else "e+"
  infinity := "null"
  nan := "null"

def writeFloat (x : Binary64) : String :=
  if x.isFinite then numberLayout.write x else "null"

def escape (c : Char) : List Char :=
  match c with
  | '"' => ['\\', '"']
  | '\\' => ['\\', '\\']
  | '\x08' => ['\\', 'b']
  | '\x0c' => ['\\', 'f']
  | '\n' => ['\\', 'n']
  | '\r' => ['\\', 'r']
  | '\t' => ['\\', 't']
  | c => if c.toNat < 0x20 then '\\' :: 'u' :: Hex.text 4 c.toNat else [c]

def writeText (s : String) : String :=
  "\"" ++ String.ofList (s.toList.flatMap escape) ++ "\""

mutual

def compact : Json → String
  | null => "null"
  | bool b => if b then "true" else "false"
  | integer n => toString n
  | float x => writeFloat x
  | text s => writeText s
  | array xs => "[" ++ ",".intercalate (compactElements xs) ++ "]"
  | object ms => "\x7b" ++ ",".intercalate (compactMembers ms) ++ "\x7d"

def compactElements : List Json → List String
  | [] => []
  | x :: xs => compact x :: compactElements xs

def compactMembers : List (String × Json) → List String
  | [] => []
  | (name, x) :: ms => (writeText name ++ ":" ++ compact x) :: compactMembers ms

end

def lineStart (level : Nat) : String := "\n" ++ String.ofList (List.replicate (2 * level) ' ')

def block (opening closing : String) (level : Nat) (items : List String) : String :=
  if items.isEmpty then opening ++ closing
  else opening ++ lineStart (level + 1) ++ ("," ++ lineStart (level + 1)).intercalate items ++
    lineStart level ++ closing

mutual

def indented : Nat → Json → String
  | _, null => "null"
  | _, bool b => if b then "true" else "false"
  | _, integer n => toString n
  | _, float x => writeFloat x
  | _, text s => writeText s
  | level, array xs => block "[" "]" level (indentedElements (level + 1) xs)
  | level, object ms => block "\x7b" "\x7d" level (indentedMembers (level + 1) ms)

def indentedElements : Nat → List Json → List String
  | _, [] => []
  | level, x :: xs => indented level x :: indentedElements level xs

def indentedMembers : Nat → List (String × Json) → List String
  | _, [] => []
  | level, (name, x) :: ms =>
      (writeText name ++ ": " ++ indented level x) :: indentedMembers level ms

end

def pretty (json : Json) : String := indented 0 json

end Schematic.Json
