import Schematic.Json.Token

namespace Schematic.Json

/-- How many arrays and objects may stand inside one another. -/
def maxDepth : Nat := 127

namespace Parser

mutual

def value : Nat → Nat → List Token → Option (Json × List Token)
  | 0, _, _ => none
  | bound + 1, depth, ts =>
      match ts, depth with
      | .value json :: rest, _ => some (json, rest)
      | .text s :: rest, _ => some (.text s, rest)
      | .openArray :: .closeArray :: rest, _ + 1 => some (.array [], rest)
      | .openArray :: rest, depth + 1 => do
          let (xs, rest) ← elements bound depth rest
          return (.array xs, rest)
      | .openObject :: .closeObject :: rest, _ + 1 => some (.object [], rest)
      | .openObject :: rest, depth + 1 => do
          let (ms, rest) ← members bound depth rest
          return (.object ms, rest)
      | _, _ => none

def elements : Nat → Nat → List Token → Option (List Json × List Token)
  | 0, _, _ => none
  | bound + 1, depth, ts => do
      let (x, rest) ← value bound depth ts
      match rest with
      | .closeArray :: rest => return ([x], rest)
      | .comma :: rest =>
          let (xs, rest) ← elements bound depth rest
          return (x :: xs, rest)
      | _ => none

def members : Nat → Nat → List Token → Option (List (String × Json) × List Token)
  | 0, _, _ => none
  | bound + 1, depth, ts =>
      match ts with
      | .text name :: .colon :: rest => do
          let (x, rest) ← value bound depth rest
          match rest with
          | .closeObject :: rest => return ([(name, x)], rest)
          | .comma :: rest =>
              let (ms, rest) ← members bound depth rest
              return ((name, x) :: ms, rest)
          | _ => none
      | _ => none

end

end Parser

/-- The bound counts two calls for each token, which is more than any reading takes. -/
def parse? (text : String) : Option Json := do
  let ts ← tokens? text
  let (json, rest) ← Parser.value (2 * ts.length + 1) maxDepth ts
  if rest.isEmpty then some json else none

end Schematic.Json
