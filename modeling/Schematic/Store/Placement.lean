import Schematic.Store.Table

/-!
What can be wrong with a placement is reported in a fixed order: first objects that are absent, then
a parent that cannot be one, then a successor that is attached elsewhere. A placement that leaves
the object where it is is checked like any other.
-/

namespace Schematic

structure Placement where
  parent : Option ObjectId := none
  before : Option ObjectId := none
  deriving DecidableEq, Inhabited

namespace Placement

def top : Placement := {}

def rejectsParent (t : Table) (object : Option ObjectId) (parent : ObjectId) : Bool :=
  object.any (t.isAncestorOrSelf · parent) || !t.isContainer parent

def fault? (t : Table) (object : Option ObjectId) (place : Placement) : Option StoreError :=
  (object.filter (!t.contains ·)).map .noSuchObject <|>
  (place.parent.filter (!t.contains ·)).map .noSuchParent <|>
  (place.before.filter (!t.contains ·)).map .noSuchObject <|>
  (place.parent.filter (rejectsParent t object ·)).map .invalidParent <|>
  (place.before.filter (t.parent? · != place.parent)).map .notSibling

def check (t : Table) (object : Option ObjectId) (place : Placement) : Except StoreError Unit :=
  match place.fault? t object with
  | some e => .error e
  | none => .ok ()

/-- The sibling that an object moved to this placement comes to stand before. An object that is
placed before itself stays in place, so it stands before the sibling that now follows it. -/
def successor (t : Table) (id : ObjectId) (place : Placement) : Option ObjectId :=
  if place.before = some id then
    (t.position? id).bind fun index => (t.siblings place.parent)[index + 1]?
  else place.before

end Placement

namespace Table

def move (t : Table) (id : ObjectId) (place : Placement) : Table :=
  t.relink id place.parent (place.successor t id)

def relocate (t : Table) (id : ObjectId) (place : Placement) : Except StoreError Table :=
  (place.check t (some id)).map fun _ => t.move id place

end Table

end Schematic
