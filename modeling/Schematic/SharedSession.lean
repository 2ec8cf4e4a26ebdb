import Schematic.Session

/-!
A revision is a *handle* here: it says in which memory cell the table lies, and a fork gets a handle
for the same cell. Before a change through a handle the table is copied to a cell of its own, unless
no other handle is held for the cell. Cells are not given back.
-/

namespace Schematic

structure Handle where
  cell : Nat
  transient : Bool := true

structure SharedSession where
  handles : Std.ExtTreeMap String Handle := ∅
  cells : Nat → Table := fun _ => .empty
  /-- From this cell on, no cell is in use. -/
  unused : Nat := 0
  supply : Supply := {}

namespace SharedSession

def handle? (s : SharedSession) (name : String) : Option Handle := s.handles[name]?

def handle (s : SharedSession) (name : String) : Except Refusal Handle :=
  match s.handle? name with
  | some h => .ok h
  | none => .error (.unknownRevision name)

def view (s : SharedSession) (h : Handle) : Revision := ⟨s.cells h.cell, h.transient⟩

def revision? (s : SharedSession) (name : String) : Option Revision := (s.handle? name).map s.view

def put (s : SharedSession) (name : String) (h : Handle) : SharedSession :=
  { s with handles := s.handles.insert name h }

/-! ### Cells -/

def holders (s : SharedSession) (cell : Nat) : Nat :=
  s.handles.toList.countP (·.2.cell == cell)

def allocate (s : SharedSession) (name : String) (h : Handle) (t : Table) : SharedSession :=
  { s.put name { h with cell := s.unused } with
    cells := fun cell => if cell = s.unused then t else s.cells cell
    unused := s.unused + 1 }

/-- Let a revision have its cell for itself: the table is copied if other handles are held for the
cell, in the session or by `guests` outside of it. -/
def own (s : SharedSession) (name : String) (h : Handle) (guests : Nat) : Nat × SharedSession :=
  if 1 < s.holders h.cell + guests then (s.unused, s.allocate name h (s.cells h.cell))
  else (h.cell, s)

def replace (s : SharedSession) (cell : Nat) (t : Table × Supply) : SharedSession :=
  { s with cells := fun other => if other = cell then t.1 else s.cells other, supply := t.2 }

def change (s : SharedSession) (name : String) (h : Handle)
    (f : Table × Supply → Table × Supply) : SharedSession :=
  let (cell, s) := s.own name h 0
  s.replace cell (f (s.cells cell, s.supply))

/-! ### Copies from cell to cell -/

def copyNext (source cell : Nat) (root : ObjectId)
    (state : SharedSession × List (ObjectId × ObjectId)) (id : ObjectId) :
    SharedSession × List (ObjectId × ObjectId) :=
  let (s, copies) := state
  let c := Revision.Copying.next (s.cells source) root ⟨s.cells cell, copies, s.supply⟩ id
  (s.replace cell (c.table, c.supply), c.copies)

def copySubtree (s : SharedSession) (source cell : Nat) (root : ObjectId) :
    ObjectId × SharedSession :=
  let (s, copies) := ((s.cells source).subtree root).foldl (copyNext source cell root) (s, [])
  ((copies.lookup root).getD root, s)

def copySubtrees (s : SharedSession) (source cell : Nat) :
    List ObjectId → List ObjectId × SharedSession
  | [] => ([], s)
  | root :: roots =>
      let (copy, s) := s.copySubtree source cell root
      let (copies, s) := s.copySubtrees source cell roots
      (copy :: copies, s)

/-- The handles outside the session while objects are copied: a revision that is copied into itself
is read through a fork that is made for the purpose. -/
def guests (name source : String) : Nat := if name = source then 1 else 0

/-! ### Commands -/

def write (s : SharedSession) (name : String) (h : Handle) (updates : List (ObjectId × Payload)) :
    Except Refusal (Answer × SharedSession) := do
  let t ← Session.ofStore (s.view h).editable
  let staged ← Session.ofStore (Revision.stage t updates)
  if staged.isEmpty then return (.done, s)
  else return (.done, s.change name h (staged.foldl Revision.install))

def perform (s : SharedSession) : Command → Except Refusal (Answer × SharedSession)
  | .start name => return (.done, s.allocate name { cell := s.unused } .empty)
  | .fork name source => do
      let h ← s.handle source
      return (.done, s.put name { h with transient := true })
  | .finalize name => do
      let h ← s.handle name
      return (.done, s.put name { h with transient := false })
  | .drop name =>
      return (.existed (s.handle? name).isSome, { s with handles := s.handles.erase name })
  | .add name payload place => do
      let h ← s.handle name
      let t ← Session.ofStore (s.view h).editable
      Session.ofStore (place.check t none)
      let kept ← Session.ofStore (Revision.acceptPayload payload)
      let (id, supply) := s.supply.mint
      let (stamp, supply) := supply.stamp
      return (.object id, s.change name h fun (t, _) =>
        (t.insert id ⟨stamp, kept⟩ place.parent place.before, supply))
  | .write name updates => do
      let h ← s.handle name
      s.write name h updates
  | .apply name sel change => do
      let h ← s.handle name
      s.write name h ((s.view h).updates sel change)
  | .delete name id => do
      let h ← s.handle name
      let t ← Session.ofStore (s.view h).editable
      if t.contains id then
        return (.done, s.change name h fun (t, supply) => (t.removeSubtree id, supply))
      else throw (.store (.noSuchObject id))
  | .deleteSelected name sel => do
      let h ← s.handle name
      let _ ← Session.ofStore (s.view h).editable
      let targets := (s.view h).selected sel
      if targets.isEmpty then return (.done, s)
      else return (.done, s.change name h fun (t, supply) =>
        (targets.foldl Table.removeSubtree t, supply))
  | .relocate name id place => do
      let h ← s.handle name
      let t ← Session.ofStore (s.view h).editable
      Session.ofStore (place.check t (some id))
      return (.done, s.change name h fun (t, supply) => (t.move id place, supply))
  | .copy name source id => do
      let h ← s.handle name
      let other ← s.handle source
      let _ ← Session.ofStore (s.view h).editable
      if (s.view other).contains id then
        let (cell, s) := s.own name h (guests name source)
        let (copy, s) := s.copySubtree other.cell cell id
        return (.object copy, s)
      else throw (.store (.noSuchObject id))
  | .copySelected name source sel => do
      let h ← s.handle name
      let other ← s.handle source
      let _ ← Session.ofStore (s.view h).editable
      let roots := (s.view other).selectedRoots sel
      if roots.isEmpty then return (.copies .none, s)
      else
        let (cell, s) := s.own name h (guests name source)
        let (copies, s) := s.copySubtrees other.cell cell roots
        return (.copies (.ofList copies), s)

def step (s : SharedSession) (command : Command) : Except Refusal Answer × SharedSession :=
  match s.perform command with
  | .ok (answer, next) => (.ok answer, next)
  | .error reason => (.error reason, s)

def run (s : SharedSession) : List Command → List (Except Refusal Answer) × SharedSession
  | [] => ([], s)
  | command :: commands =>
      let (answer, s) := s.step command
      let (answers, s) := s.run commands
      (answer :: answers, s)

/-! ### Instances

Memory is freed by counting: a table when the last handle for its cell is let go of, an instance
with the last entry that points to it, and a resource with the last handle to it, of which every
instance has one. -/

/-- The instances that lie or have lain in memory. -/
def instances (s : SharedSession) : List ObjectState :=
  ((List.range s.unused).flatMap fun cell => (s.cells cell).states).eraseDups

/-- How many entries point to an instance, in all cells that are not freed. -/
def pointers (s : SharedSession) (state : ObjectState) : Nat :=
  (((List.range s.unused).filter (0 < s.holders ·)).flatMap
    fun cell => (s.cells cell).states).count state

def refCount (s : SharedSession) (handles : Nat) (r : Resource) : Nat :=
  if r.isEmpty then 0
  else handles + (s.instances.filter (0 < s.pointers ·)).countP (·.payload.resource == r)

end SharedSession

end Schematic
