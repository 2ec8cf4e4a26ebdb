import Schematic.Store.Revision

namespace Schematic

namespace Revision

def isModified (source target : Revision) (id : ObjectId) : Bool :=
  match source.state? id, target.state? id with
  | some old, some new =>
      old.stamp != new.stamp || source.location? id != target.location? id
  | _, _ => false

end Revision

/-- Each list is in the order of the revision it is read from, which is the second for modified
objects. -/
structure Difference where
  added : List ObjectId
  removed : List ObjectId
  modified : List ObjectId
  deriving DecidableEq

namespace Difference

def between (source target : Revision) : Difference where
  added := target.objects.filter (!source.contains ·)
  removed := source.objects.filter (!target.contains ·)
  modified := target.objects.filter (source.isModified target ·)

end Difference

end Schematic
