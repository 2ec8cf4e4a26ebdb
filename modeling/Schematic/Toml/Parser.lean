import Schematic.Toml.Document
import Schematic.Toml.Text

namespace Schematic.Toml

namespace Parser

def skipSpaces (cs : List Char) : List Char := cs.dropWhile isSpace

def isBareKey (c : Char) : Bool := c.isAlphanum || c == '_' || c == '-'

def name? : List Char → Option (String × List Char)
  | '"' :: rest => Text.line? ('"' :: rest)
  | '\x27' :: rest => Text.line? ('\x27' :: rest)
  | cs =>
      match cs.takeWhile isBareKey with
      | [] => none
      | name => some (String.ofList name, cs.dropWhile isBareKey)

def path? : Nat → List Char → Option (List String × List Char)
  | 0, _ => none
  | bound + 1, cs => do
      let (name, rest) ← name? (skipSpaces cs)
      match skipSpaces rest with
      | '.' :: rest => do
          let (path, rest) ← path? bound rest
          return (name :: path, rest)
      | rest => return ([name], rest)

def skipComment : List Char → List Char
  | '#' :: rest => rest.dropWhile isPlain
  | cs => cs

def skipBlank : Nat → List Char → List Char
  | 0, cs => cs
  | bound + 1, cs =>
      match skipLines cs with
      | '#' :: rest => skipBlank bound (rest.dropWhile isPlain)
      | rest => rest

mutual

def value? : Nat → List Char → Option (Value × List Char)
  | 0, _ => none
  | bound + 1, cs =>
      match cs with
      | 't' :: 'r' :: 'u' :: 'e' :: rest => some (.flag true, rest)
      | 'f' :: 'a' :: 'l' :: 's' :: 'e' :: rest => some (.flag false, rest)
      | '[' :: rest =>
          match skipBlank rest.length rest with
          | ']' :: rest => some (.emptyArray, rest)
          | _ => none
      | '\x7b' :: rest =>
          match skipSpaces rest with
          | '\x7d' :: rest => some (.table .braces [], rest)
          | rest => do
              let (ms, rest) ← braces? bound [] rest
              return (.table .braces ms, rest)
      | cs => do
          let (s, rest) ← Text.read? cs
          return (.text s, rest)

def braces? : Nat → Members → List Char → Option (Members × List Char)
  | 0, _, _ => none
  | bound + 1, ms, cs => do
      let (path, rest) ← path? (cs.length + 1) cs
      match rest with
      | '=' :: rest => do
          let (value, rest) ← value? bound (skipSpaces rest)
          let ms ← ms.assign value path
          match skipSpaces rest with
          | ',' :: rest => braces? bound ms rest
          | '\x7d' :: rest => return (ms, rest)
          | _ => none
      | _ => none

end

def statement? (cs : List Char) : Option (Option Statement × List Char) :=
  match cs with
  | [] => some (none, [])
  | '#' :: _ | '\n' :: _ | '\r' :: _ => some (none, cs)
  | '[' :: rest => do
      let (path, rest) ← path? (rest.length + 1) rest
      match rest with
      | ']' :: rest => return (some (.header path), rest)
      | _ => none
  | cs => do
      let (path, rest) ← path? (cs.length + 1) cs
      match rest with
      | '=' :: rest => do
          let (value, rest) ← value? (rest.length + 1) (skipSpaces rest)
          return (some (.assignment path value), rest)
      | _ => none

/-- The statements of a text; `bound` is above the number of its lines. -/
def statements? : Nat → List Char → Option (List Statement)
  | 0, _ => none
  | bound + 1, cs => do
      let (statement, rest) ← statement? (skipSpaces cs)
      match skipComment (skipSpaces rest) with
      | [] => return statement.toList
      | rest => do
          let rest ← endOfLine? rest
          let more ← statements? bound rest
          return statement.toList ++ more

end Parser

def dropMark : List Char → List Char
  | '\ufeff' :: rest => rest
  | cs => cs

def parse? (text : String) : Option Members := do
  let cs := dropMark text.toList
  let statements ← Parser.statements? (cs.length + 1) cs
  let document ← Document.ofStatements? statements
  return document.members

end Schematic.Toml
