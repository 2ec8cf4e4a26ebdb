import Std.Data.ExtTreeSet
import Schematic.ObjectId

namespace Schematic

structure Selection where
  members : Std.ExtTreeSet ObjectId

namespace Selection

def none : Selection := ⟨∅⟩

instance : Inhabited Selection := ⟨none⟩

def object (id : ObjectId) : Selection := ⟨{id}⟩

def ofList (ids : List ObjectId) : Selection := ⟨Std.ExtTreeSet.ofList ids⟩

def toList (s : Selection) : List ObjectId := s.members.toList

def contains (s : Selection) (id : ObjectId) : Bool := s.members.contains id

def size (s : Selection) : Nat := s.members.size

def isEmpty (s : Selection) : Bool := s.size == 0

def including (s : Selection) (id : ObjectId) : Selection := ⟨s.members.insert id⟩

def excluding (s : Selection) (id : ObjectId) : Selection := ⟨s.members.erase id⟩

def union (s t : Selection) : Selection := ⟨s.members ∪ t.members⟩

def intersection (s t : Selection) : Selection := ⟨s.members ∩ t.members⟩

def difference (s t : Selection) : Selection := ⟨s.members \ t.members⟩

def eq (s t : Selection) : Bool := decide (s.members = t.members)

theorem ext {s t : Selection} (h : ∀ id, s.contains id = t.contains id) : s = t := by
  cases s
  cases t
  congr 1
  exact Std.ExtTreeSet.ext_contains h

theorem eq_iff {s t : Selection} : s.eq t = true ↔ s = t := by
  cases s
  cases t
  simp [eq]

end Selection

end Schematic
