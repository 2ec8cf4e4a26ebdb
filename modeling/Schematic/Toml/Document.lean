namespace Schematic.Toml

/-- How a table came about, which decides whether it may be extended. -/
inductive Origin
  | braces
  | header
  | parent
  | dotted
  deriving DecidableEq

inductive Value
  | text (value : String)
  | flag (value : Bool)
  | emptyArray
  | table (origin : Origin) (members : List (String × Value))
  deriving Inhabited

abbrev Members := List (String × Value)

namespace Members

def replace (ms : Members) (name : String) (value : Value) : Members :=
  ms.map fun m => if m.1 == name then (name, value) else m

/-- Give a value to a path of names. Tables on the way are made, or extended if they were made in
this way too. -/
def assign (ms : Members) (value : Value) : List String → Option Members
  | [] => none
  | [name] => if (ms.lookup name).isSome then none else some (ms ++ [(name, value)])
  | name :: path =>
      match ms.lookup name with
      | none => do
          let inner ← assign [] value path
          return ms ++ [(name, .table .dotted inner)]
      | some (.table .dotted inner) => do
          let inner ← assign inner value path
          return ms.replace name (.table .dotted inner)
      | some _ => none

/-- Open the table at a path of names. It is new, or was only mentioned as a parent before. -/
def openTable (ms : Members) : List String → Option Members
  | [] => none
  | [name] =>
      match ms.lookup name with
      | none => some (ms ++ [(name, .table .header [])])
      | some (.table .parent inner) => some (ms.replace name (.table .header inner))
      | some _ => none
  | name :: path =>
      match ms.lookup name with
      | none => do
          let inner ← openTable [] path
          return ms ++ [(name, .table .parent inner)]
      | some (.table .braces _) => none
      | some (.table origin inner) => do
          let inner ← openTable inner path
          return ms.replace name (.table origin inner)
      | some _ => none

def within (change : Members → Option Members) (ms : Members) : List String → Option Members
  | [] => change ms
  | name :: path =>
      match ms.lookup name with
      | some (.table origin inner) => do
          let inner ← within change inner path
          return ms.replace name (.table origin inner)
      | _ => none

end Members

inductive Statement
  | assignment (path : List String) (value : Value)
  | header (path : List String)

structure Document where
  members : Members := []
  current : List String := []

namespace Document

def add (d : Document) : Statement → Option Document
  | .assignment path value => do
      let members ← Members.within (fun ms => ms.assign value path) d.members d.current
      return { d with members }
  | .header path => do
      let members ← d.members.openTable path
      return ⟨members, path⟩

def ofStatements? (statements : List Statement) : Option Document := statements.foldlM add {}

end Document

end Schematic.Toml
