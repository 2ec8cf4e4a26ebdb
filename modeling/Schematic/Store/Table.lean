import Std.Data.ExtTreeMap
import Schematic.Store.State

/-!
Every object has an entry, with its state and its parent; every parent, and the top level, has a
list of the objects attached to it. The operations of this module check nothing. A list is never
kept empty, so that tables with the same entries and the same lists are equal.
-/

namespace Schematic

structure Entry where
  state : ObjectState
  parent : Option ObjectId
  deriving DecidableEq

namespace Entry

def kind (entry : Entry) : ObjectKind := entry.state.kind

end Entry

structure Table where
  entries : Std.ExtTreeMap ObjectId Entry := ∅
  /-- The objects attached to each parent, and those at the top level under `none`. -/
  children : Std.ExtTreeMap (Option ObjectId) (List ObjectId) := ∅

namespace Table

def empty : Table := {}

instance : Inhabited Table := ⟨empty⟩

def get? (t : Table) (id : ObjectId) : Option Entry := t.entries[id]?

def contains (t : Table) (id : ObjectId) : Bool := (t.get? id).isSome

def size (t : Table) : Nat := t.entries.size

def isEmpty (t : Table) : Bool := t.size == 0

def ids (t : Table) : List ObjectId := t.entries.keys

def states (t : Table) : List ObjectState := t.entries.toList.map (·.2.state)

def parent? (t : Table) (id : ObjectId) : Option ObjectId := (t.get? id).bind Entry.parent

def isContainer (t : Table) (id : ObjectId) : Bool := (t.get? id).any (·.kind.isContainer)

def siblings (t : Table) (parent : Option ObjectId) : List ObjectId :=
  t.children[parent]?.getD []

def hasChildren (t : Table) (id : ObjectId) : Bool := !(t.siblings (some id)).isEmpty

def position? (t : Table) (id : ObjectId) : Option Nat := do
  let entry ← t.get? id
  (t.siblings entry.parent).idxOf? id

/-! ### Walks

Walks through a table are bounded by its size. A walk that follows parents or children without
coming back to an object it has seen ends before the bound does. -/

/-- At most `bound` objects, each followed by its parent, from `id` on. -/
def climb (t : Table) : Nat → ObjectId → List ObjectId
  | 0, _ => []
  | bound + 1, id => id :: ((t.parent? id).map (t.climb bound)).getD []

def lineage (t : Table) (id : ObjectId) : List ObjectId := t.climb (t.size + 1) id

def isAncestorOrSelf (t : Table) (ancestor id : ObjectId) : Bool :=
  (t.lineage id).contains ancestor

/-- `id` and what is attached to it, down to `bound` levels, parents before children. -/
def descend (t : Table) : Nat → ObjectId → List ObjectId
  | 0, _ => []
  | bound + 1, id => id :: (t.siblings (some id)).flatMap (t.descend bound)

def depthBound (t : Table) : Nat := t.children.size + 1

/-- An object followed by everything attached to it, in pre-order; nothing if it is absent. -/
def subtree (t : Table) (id : ObjectId) : List ObjectId :=
  if t.contains id then t.descend t.depthBound id else []

def preorder (t : Table) : List ObjectId :=
  (t.siblings none).flatMap (t.descend t.depthBound)

/-! ### Changes -/

/-- A list with `id` in front of the first `before`, or at its end. -/
def insertBefore (id : ObjectId) (before : Option ObjectId) : List ObjectId → List ObjectId
  | [] => [id]
  | x :: xs => if some x = before then id :: x :: xs else x :: insertBefore id before xs

def setSiblings (t : Table) (parent : Option ObjectId) (list : List ObjectId) : Table :=
  { t with
    children := if list.isEmpty then t.children.erase parent else t.children.insert parent list }

def link (t : Table) (id : ObjectId) (parent before : Option ObjectId) : Table :=
  t.setSiblings parent (insertBefore id before (t.siblings parent))

def unlink (t : Table) (id : ObjectId) : Table :=
  match t.get? id with
  | some entry => t.setSiblings entry.parent ((t.siblings entry.parent).filter (· != id))
  | none => t

def insert (t : Table) (id : ObjectId) (state : ObjectState) (parent before : Option ObjectId) :
    Table :=
  { t with entries := t.entries.insert id ⟨state, parent⟩ }.link id parent before

def setState (t : Table) (id : ObjectId) (state : ObjectState) : Table :=
  { t with entries := t.entries.modify id fun entry => { entry with state } }

def relink (t : Table) (id : ObjectId) (parent before : Option ObjectId) : Table :=
  let t := t.unlink id
  { t with entries := t.entries.modify id fun entry => { entry with parent } }.link
    id parent before

def forget (t : Table) (id : ObjectId) : Table :=
  { entries := t.entries.erase id, children := t.children.erase (some id) }

def removeSubtree (t : Table) (id : ObjectId) : Table :=
  (t.subtree id).foldl forget (t.unlink id)

end Table

end Schematic
