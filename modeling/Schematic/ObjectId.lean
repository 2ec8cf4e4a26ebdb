import Schematic.Hex
import Std.Data.ExtTreeSet

namespace Schematic

structure ObjectId where
  value : Nat
  deriving DecidableEq, Inhabited

namespace ObjectId

instance : Ord ObjectId := ⟨fun a b => compare a.value b.value⟩

instance : Std.TransOrd ObjectId where
  eq_swap := Std.OrientedOrd.eq_swap (α := Nat)
  isLE_trans := Std.TransOrd.isLE_trans (α := Nat)

instance : Std.LawfulEqOrd ObjectId where
  eq_of_compare := by
    rintro ⟨a⟩ ⟨b⟩ h
    exact congrArg ObjectId.mk (Std.LawfulEqOrd.eq_of_compare (α := Nat) h)

def groups : List Nat := [8, 4, 4, 4, 12]

def cut : List Nat → List Char → List (List Char)
  | [], _ => []
  | n :: ns, cs => cs.take n :: cut ns (cs.drop n)

def digits (id : ObjectId) : List Char := Hex.text 32 id.value

/-- The text of an identity, as `018f3e2a-7b4c-7def-8abc-0123456789ab`. -/
def text (id : ObjectId) : String :=
  String.ofList (List.intercalate ['-'] (cut groups id.digits))

/-- The last eight digits, which differ between identities made close to one another. -/
def short (id : ObjectId) : String := String.ofList (id.digits.drop 24)

def describe (id : ObjectId) : String := "ObjectId(" ++ id.short ++ ")"

def hyphenated? (cs : List Char) : Option (List Char) :=
  let parts := cut (groups.map (· + 1)) (cs ++ ['-'])
  if cs.length = 36 ∧ parts.all (fun part => part.getLast? == some '-') then
    some (parts.flatMap List.dropLast)
  else none

/-- Bare digits, groups with hyphens, or groups with hyphens inside braces or after the `urn:uuid:`
of a name. -/
def digits? (cs : List Char) : Option (List Char) :=
  if cs.length = 32 then some cs
  else if cs.length = 36 then hyphenated? cs
  else if cs.length = 38 ∧ cs.head? = some '\x7b' ∧ cs.getLast? = some '\x7d' then
    hyphenated? cs.dropLast.tail
  else if cs.length = 45 ∧ (cs.take 9).map Char.toLower = "urn:uuid:".toList then
    hyphenated? (cs.drop 9)
  else none

def ofText? (s : String) : Option ObjectId := do
  let ds ← digits? s.toList
  let n ← Hex.value? ds
  return ⟨n⟩

end ObjectId

/-- What is still unused: identities from `nextId` on, and marks of payload instances from
`nextStamp` on. -/
structure Supply where
  nextId : Nat := 0
  nextStamp : Nat := 0
  deriving DecidableEq, Inhabited

namespace Supply

def mint (supply : Supply) : ObjectId × Supply :=
  (⟨supply.nextId⟩, { supply with nextId := supply.nextId + 1 })

def stamp (supply : Supply) : Nat × Supply :=
  (supply.nextStamp, { supply with nextStamp := supply.nextStamp + 1 })

end Supply

end Schematic
