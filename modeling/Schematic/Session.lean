import Schematic.Attribute.Bulk
import Schematic.Store.Difference

namespace Schematic

/-- One step of work. A command names the revision it changes first; revisions that are only read
come after it. -/
inductive Command
  | start (rev : String)
  | fork (rev source : String)
  | finalize (rev : String)
  | drop (rev : String)
  | add (rev : String) (payload : Payload) (place : Placement)
  | write (rev : String) (updates : List (ObjectId × Payload))
  | apply (rev : String) (sel : Selection) (change : Change)
  | delete (rev : String) (id : ObjectId)
  | deleteSelected (rev : String) (sel : Selection)
  | relocate (rev : String) (id : ObjectId) (place : Placement)
  | copy (rev source : String) (id : ObjectId)
  | copySelected (rev source : String) (sel : Selection)

inductive Answer
  | done
  | object (id : ObjectId)
  | copies (sel : Selection)
  | existed (yes : Bool)

inductive Refusal
  | unknownRevision (name : String)
  | store (reason : StoreError)
  deriving DecidableEq

/-- Revisions under names, and one supply for all of them, so that no two objects of a session ever
have the same identity. -/
structure Session where
  revisions : Std.ExtTreeMap String Revision := ∅
  supply : Supply := {}

namespace Session

def empty : Session := {}

instance : Inhabited Session := ⟨empty⟩

def revision? (s : Session) (name : String) : Option Revision := s.revisions[name]?

def revision (s : Session) (name : String) : Except Refusal Revision :=
  match s.revision? name with
  | some r => .ok r
  | none => .error (.unknownRevision name)

def put (s : Session) (name : String) (r : Revision) : Session :=
  { s with revisions := s.revisions.insert name r }

def update (s : Session) (name : String) (changed : Revision × Supply) : Session :=
  { s.put name changed.1 with supply := changed.2 }

def ofStore {α : Type} (result : Except StoreError α) : Except Refusal α :=
  result.mapError .store

def perform (s : Session) : Command → Except Refusal (Answer × Session)
  | .start rev => return (.done, s.put rev {})
  | .fork rev source => do
      let r ← s.revision source
      return (.done, s.put rev r.fork)
  | .finalize rev => do
      let r ← s.revision rev
      return (.done, s.put rev r.finalize)
  | .drop rev =>
      return (.existed (s.revision? rev).isSome,
        { s with revisions := s.revisions.erase rev })
  | .add rev payload place => do
      let r ← s.revision rev
      let (id, changed) ← ofStore (r.add s.supply payload place)
      return (.object id, s.update rev changed)
  | .write rev updates => do
      let r ← s.revision rev
      let changed ← ofStore (r.write s.supply updates)
      return (.done, s.update rev changed)
  | .apply rev sel change => do
      let r ← s.revision rev
      let changed ← ofStore (r.apply s.supply sel change)
      return (.done, s.update rev changed)
  | .delete rev id => do
      let r ← s.revision rev
      let changed ← ofStore (r.delete id)
      return (.done, s.put rev changed)
  | .deleteSelected rev sel => do
      let r ← s.revision rev
      let changed ← ofStore (r.deleteSelected sel)
      return (.done, s.put rev changed)
  | .relocate rev id place => do
      let r ← s.revision rev
      let changed ← ofStore (r.relocate id place)
      return (.done, s.put rev changed)
  | .copy rev source id => do
      let r ← s.revision rev
      let other ← s.revision source
      let (copy, changed) ← ofStore (r.copy s.supply other id)
      return (.object copy, s.update rev changed)
  | .copySelected rev source sel => do
      let r ← s.revision rev
      let other ← s.revision source
      let (copies, changed) ← ofStore (r.copySelected s.supply other sel)
      return (.copies copies, s.update rev changed)

def step (s : Session) (command : Command) : Except Refusal Answer × Session :=
  match s.perform command with
  | .ok (answer, next) => (.ok answer, next)
  | .error reason => (.error reason, s)

def run (s : Session) : List Command → List (Except Refusal Answer) × Session
  | [] => ([], s)
  | command :: commands =>
      let (answer, s) := s.step command
      let (answers, s) := s.run commands
      (answer :: answers, s)

/-! ### Instances -/

def instances (s : Session) : List ObjectState :=
  (s.revisions.toList.flatMap (·.2.table.states)).eraseDups

/-- How often a resource is referred to: by `handles` handles outside the session, and once by each
instance that holds it. -/
def refCount (s : Session) (handles : Nat) (r : Resource) : Nat :=
  handles + s.instances.countP (·.payload.resource == r)

end Session

end Schematic
