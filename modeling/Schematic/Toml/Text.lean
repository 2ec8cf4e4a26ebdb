import Schematic.Hex

namespace Schematic.Toml

def isPlain (c : Char) : Bool := c == '\t' || (decide (0x20 ≤ c.toNat) && c != '\x7f')

def isSpace (c : Char) : Bool := c == ' ' || c == '\t'

def endOfLine? : List Char → Option (List Char)
  | '\n' :: rest => some rest
  | '\r' :: '\n' :: rest => some rest
  | _ => none

def skipLines : List Char → List Char
  | '\n' :: rest => skipLines rest
  | '\r' :: '\n' :: rest => skipLines rest
  | c :: rest => if isSpace c then skipLines rest else c :: rest
  | [] => []

namespace Text

def scalar? (code : Nat) : Option Char :=
  if code < 0xd800 ∨ (0xe000 ≤ code ∧ code < 0x110000) then some (Char.ofNat code) else none

def escape? : List Char → Option (Char × List Char)
  | 'b' :: rest => some ('\x08', rest)
  | 't' :: rest => some ('\t', rest)
  | 'n' :: rest => some ('\n', rest)
  | 'f' :: rest => some ('\x0c', rest)
  | 'r' :: rest => some ('\r', rest)
  | '"' :: rest => some ('"', rest)
  | '\\' :: rest => some ('\\', rest)
  | 'u' :: a :: b :: c :: d :: rest => do
      let code ← Hex.value? [a, b, c, d]
      let x ← scalar? code
      return (x, rest)
  | 'U' :: a :: b :: c :: d :: e :: f :: g :: h :: rest => do
      let code ← Hex.value? [a, b, c, d, e, f, g, h]
      let x ← scalar? code
      return (x, rest)
  | _ => none

/-- What a string with escapes holds on one line, up to its closing mark. Like the other readers of
this module, it takes a bound above the number of characters that are left. -/
def basic? : Nat → List Char → Option (List Char × List Char)
  | 0, _ => none
  | _ + 1, '"' :: rest => some ([], rest)
  | bound + 1, '\\' :: rest => do
      let (x, rest) ← escape? rest
      let (xs, rest) ← basic? bound rest
      return (x :: xs, rest)
  | bound + 1, c :: rest =>
      if isPlain c then (basic? bound rest).map fun (xs, rest) => (c :: xs, rest) else none
  | _ + 1, [] => none

def literal? : Nat → List Char → Option (List Char × List Char)
  | 0, _ => none
  | _ + 1, '\x27' :: rest => some ([], rest)
  | bound + 1, c :: rest =>
      if isPlain c then (literal? bound rest).map fun (xs, rest) => (c :: xs, rest) else none
  | _ + 1, [] => none

/-- The content and the rest of a text that begins with the closing mark of a string over several
lines. Up to two more quotes in front of the mark belong to the string. -/
def closing? (quote : Char) (cs : List Char) : Option (List Char × List Char) :=
  let run := (cs.takeWhile (· == quote)).length
  if 3 ≤ run then
    let more := min (run - 3) 2
    some (List.replicate more quote, cs.drop (more + 3))
  else none

/-- What a string with escapes holds over several lines. A backslash at the end of a line takes away
everything up to the next character that is neither a space nor an end of line. -/
def multiBasic? : Nat → List Char → Option (List Char × List Char)
  | 0, _ => none
  | bound + 1, cs =>
      match closing? '"' cs, cs with
      | some closed, _ => some closed
      | none, '\\' :: rest =>
          match endOfLine? (rest.dropWhile isSpace) with
          | some rest => multiBasic? bound (skipLines rest)
          | none => do
              let (x, rest) ← escape? rest
              let (xs, rest) ← multiBasic? bound rest
              return (x :: xs, rest)
      | none, c :: rest =>
          match endOfLine? (c :: rest) with
          | some rest => (multiBasic? bound rest).map fun (xs, rest) => ('\n' :: xs, rest)
          | none =>
              if isPlain c then (multiBasic? bound rest).map fun (xs, rest) => (c :: xs, rest)
              else none
      | none, [] => none

def multiLiteral? : Nat → List Char → Option (List Char × List Char)
  | 0, _ => none
  | bound + 1, cs =>
      match closing? '\x27' cs, cs with
      | some closed, _ => some closed
      | none, c :: rest =>
          match endOfLine? (c :: rest) with
          | some rest => (multiLiteral? bound rest).map fun (xs, rest) => ('\n' :: xs, rest)
          | none =>
              if isPlain c then (multiLiteral? bound rest).map fun (xs, rest) => (c :: xs, rest)
              else none
      | none, [] => none

def dropEndOfLine (cs : List Char) : List Char := (endOfLine? cs).getD cs

def line? : List Char → Option (String × List Char)
  | '"' :: rest => (basic? (rest.length + 1) rest).map fun (xs, rest) => (String.ofList xs, rest)
  | '\x27' :: rest =>
      (literal? (rest.length + 1) rest).map fun (xs, rest) => (String.ofList xs, rest)
  | _ => none

def read? : List Char → Option (String × List Char)
  | '"' :: '"' :: '"' :: rest =>
      (multiBasic? (rest.length + 1) (dropEndOfLine rest)).map
        fun (xs, rest) => (String.ofList xs, rest)
  | '\x27' :: '\x27' :: '\x27' :: rest =>
      (multiLiteral? (rest.length + 1) (dropEndOfLine rest)).map
        fun (xs, rest) => (String.ofList xs, rest)
  | cs => line? cs

/-! ### Writing -/

inductive Form
  | basic
  | literal
  | multiBasic
  | multiLiteral
  deriving DecidableEq

namespace Form

def mark : Form → String
  | basic => "\""
  | literal => "\x27"
  | multiBasic => "\"\"\""
  | multiLiteral => "\x27\x27\x27"

def hasEscapes (form : Form) : Bool := form == basic || form == multiBasic

def isMulti (form : Form) : Bool := form == multiBasic || form == multiLiteral

def quotes (form : Form) : Nat := if form.isMulti then 2 else 0

def quote (form : Form) : Char := if form.hasEscapes then '"' else '\x27'

end Form

def needsCode (c : Char) : Bool := !isPlain c && c != '\n'

def hasRun (quote : Char) (n : Nat) : List Char → Bool
  | [] => n == 0
  | c :: cs => (List.replicate n quote).isPrefixOf (c :: cs) || hasRun quote n cs

def Form.fits (form : Form) (cs : List Char) : Bool :=
  !cs.any needsCode && !(form.hasEscapes && cs.contains '\\') &&
    !hasRun form.quote (form.quotes + 1) cs && (form.isMulti || !cs.contains '\n')

/-- The form that a string is written in: the first that is fit for it, single marks before triple
ones and quotation marks before apostrophes. A string that no form is fit for is written with
escapes. -/
def Form.of (cs : List Char) : Form :=
  match [basic, literal, multiBasic, multiLiteral].find? (·.fits cs) with
  | some form => form
  | none => if cs.contains '\n' then multiBasic else basic

def escape (form : Form) (c : Char) : List Char :=
  match c with
  | '\x08' => ['\\', 'b']
  | '\t' => ['\\', 't']
  | '\n' => if form.isMulti then ['\n'] else ['\\', 'n']
  | '\x0c' => ['\\', 'f']
  | '\r' => ['\\', 'r']
  | '\\' => ['\\', '\\']
  | c => if isPlain c then [c] else '\\' :: 'u' :: (Hex.text 4 c.toNat).map Char.toUpper

/-- A string in a form with escapes, after `run` quotation marks in a row. A quotation mark is
escaped only where there would be too many in a row without that. -/
def escapeAll (form : Form) (run : Nat) : List Char → List Char
  | [] => []
  | '"' :: cs =>
      if run < form.quotes then '"' :: escapeAll form (run + 1) cs
      else '\\' :: '"' :: escapeAll form 0 cs
  | c :: cs => escape form c ++ escapeAll form 0 cs

def write (s : String) : String :=
  let cs := s.toList
  let form := Form.of cs
  form.mark ++ (if cs.contains '\n' then "\n" else "") ++
    (if form.hasEscapes then String.ofList (escapeAll form 0 cs) else s) ++ form.mark

end Text

end Schematic.Toml
