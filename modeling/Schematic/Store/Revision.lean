import Schematic.Store.Placement
import Schematic.Store.Selection

namespace Schematic

structure Revision where
  table : Table := .empty
  transient : Bool := true

namespace Revision

instance : Inhabited Revision := ⟨{}⟩

def fork (r : Revision) : Revision := { r with transient := true }

def finalize (r : Revision) : Revision := { r with transient := false }

def size (r : Revision) : Nat := r.table.size

def isEmpty (r : Revision) : Bool := r.table.isEmpty

def describe (r : Revision) : String :=
  "Revision \x7b transient: " ++ toString r.transient ++ ", object_count: " ++
    toString r.size ++ " \x7d"

/-! ### Reading -/

def contains (r : Revision) (id : ObjectId) : Bool := r.table.contains id

def state? (r : Revision) (id : ObjectId) : Option ObjectState :=
  (r.table.get? id).map Entry.state

def payload? (r : Revision) (id : ObjectId) : Option Payload :=
  (r.state? id).map ObjectState.payload

def kind? (r : Revision) (id : ObjectId) : Option ObjectKind := (r.payload? id).map Payload.kind

def payloadOfKind? (r : Revision) (id : ObjectId) (kind : ObjectKind) : Option Payload :=
  (r.payload? id).bind (Payload.ofKind? kind)

def location? (r : Revision) (id : ObjectId) : Option (Option ObjectId × Nat) := do
  let entry ← r.table.get? id
  let index ← r.table.position? id
  return (entry.parent, index)

def location (r : Revision) (id : ObjectId) : Except StoreError (Option ObjectId × Nat) :=
  match r.location? id with
  | some place => .ok place
  | none => .error (.noSuchObject id)

def objects (r : Revision) : List ObjectId := r.table.preorder

def attachedTo (r : Revision) (parent : Option ObjectId) : List ObjectId := r.table.siblings parent

def selected (r : Revision) (sel : Selection) : List ObjectId := r.objects.filter (sel.contains ·)

/-! ### Changing -/

def editable (r : Revision) : Except StoreError Table :=
  if r.transient then .ok r.table else .error .notTransient

def acceptPayload (payload : Payload) : Except StoreError Payload :=
  payload.accept.mapError .invalidData

def add (r : Revision) (supply : Supply) (payload : Payload) (place : Placement) :
    Except StoreError (ObjectId × Revision × Supply) := do
  let t ← r.editable
  place.check t none
  let kept ← acceptPayload payload
  let (id, supply) := supply.mint
  let (stamp, supply) := supply.stamp
  return (id, { r with table := t.insert id ⟨stamp, kept⟩ place.parent place.before }, supply)

/-- What one update asks to install, unless it is the same as what the table holds. An object to
which others are attached must stay a container. -/
def stageOne (t : Table) (id : ObjectId) (payload : Payload) :
    Except StoreError (Option (ObjectId × Payload)) :=
  match t.get? id with
  | none => .error (.noSuchObject id)
  | some entry =>
      if !payload.kind.isContainer && t.hasChildren id then .error (.invalidParent id)
      else do
        let kept ← acceptPayload payload
        return if same kept entry.state.payload then none else some (id, kept)

/-- What a list of updates asks to install. Every update is compared with the table as it is before
the first of them. -/
def stage (t : Table) (updates : List (ObjectId × Payload)) :
    Except StoreError (List (ObjectId × Payload)) := do
  let staged ← updates.mapM fun update => stageOne t update.1 update.2
  return staged.filterMap fun change => change

def install : Table × Supply → ObjectId × Payload → Table × Supply
  | (t, supply), (id, kept) =>
      let (stamp, supply) := supply.stamp
      (t.setState id ⟨stamp, kept⟩, supply)

def write (r : Revision) (supply : Supply) (updates : List (ObjectId × Payload)) :
    Except StoreError (Revision × Supply) := do
  let t ← r.editable
  let staged ← stage t updates
  let (t, supply) := staged.foldl install (t, supply)
  return ({ r with table := t }, supply)

def delete (r : Revision) (id : ObjectId) : Except StoreError Revision := do
  let t ← r.editable
  if t.contains id then return { r with table := t.removeSubtree id }
  else throw (.noSuchObject id)

def deleteSelected (r : Revision) (sel : Selection) : Except StoreError Revision := do
  let t ← r.editable
  return { r with table := (r.selected sel).foldl Table.removeSubtree t }

def relocate (r : Revision) (id : ObjectId) (place : Placement) : Except StoreError Revision := do
  let t ← r.editable
  return { r with table := ← t.relocate id place }

/-! ### Copying -/

structure Copying where
  table : Table
  copies : List (ObjectId × ObjectId)
  supply : Supply

/-- Copy one object of a subtree after its parent has been copied. The copy shares the instance. -/
def Copying.next (source : Table) (root : ObjectId) (c : Copying) (id : ObjectId) : Copying :=
  match source.get? id with
  | none => c
  | some entry =>
      let (copy, supply) := c.supply.mint
      let parent := if id = root then none else entry.parent.bind fun p => c.copies.lookup p
      ⟨c.table.insert copy entry.state parent none, (id, copy) :: c.copies, supply⟩

def copySubtree (source : Table) (target : Table × Supply) (root : ObjectId) :
    ObjectId × Table × Supply :=
  let c := (source.subtree root).foldl (Copying.next source root) ⟨target.1, [], target.2⟩
  ((c.copies.lookup root).getD root, c.table, c.supply)

def copySubtrees (source : Table) (target : Table × Supply) :
    List ObjectId → List ObjectId × Table × Supply
  | [] => ([], target)
  | root :: roots =>
      let (copy, target) := copySubtree source target root
      let (copies, target) := copySubtrees source target roots
      (copy :: copies, target)

def copy (r : Revision) (supply : Supply) (source : Revision) (id : ObjectId) :
    Except StoreError (ObjectId × Revision × Supply) := do
  let t ← r.editable
  if source.contains id then
    let (copy, t, supply) := copySubtree source.table (t, supply) id
    return (copy, { r with table := t }, supply)
  else throw (.noSuchObject id)

def hasSelectedAncestor (t : Table) (sel : Selection) (id : ObjectId) : Bool :=
  (t.lineage id).tail.any (sel.contains ·)

/-- The selected objects of a revision that are not attached to selected ones. -/
def selectedRoots (r : Revision) (sel : Selection) : List ObjectId :=
  (r.selected sel).filter (!hasSelectedAncestor r.table sel ·)

def copySelected (r : Revision) (supply : Supply) (source : Revision) (sel : Selection) :
    Except StoreError (Selection × Revision × Supply) := do
  let t ← r.editable
  let (copies, t, supply) := copySubtrees source.table (t, supply) (source.selectedRoots sel)
  return (.ofList copies, { r with table := t }, supply)

end Revision

namespace Selection

def attachedTo (r : Revision) (parent : Option ObjectId) : Selection := ofList (r.attachedTo parent)

def all (r : Revision) : Selection := ofList r.objects

def allExcept (r : Revision) (s : Selection) : Selection :=
  ofList (r.objects.filter (!s.contains ·))

end Selection

end Schematic
