import Schematic.ObjectId
import Schematic.Payload.Normal
import Schematic.Payload.Same
import Schematic.Payload.Validity

namespace Schematic

def Payload.accept (payload : Payload) : Except ValidationError Payload :=
  payload.validate.map fun _ => payload.normalize

/-- One instance of a kept payload. Instances are told apart by their stamps, even where their
payloads agree. -/
structure ObjectState where
  stamp : Nat
  payload : Payload
  deriving DecidableEq

namespace ObjectState

def kind (state : ObjectState) : ObjectKind := state.payload.kind

end ObjectState

inductive StoreError
  | notTransient
  | noSuchObject (id : ObjectId)
  | noSuchParent (id : ObjectId)
  /-- The parent is no container, or lies below the object itself. -/
  | invalidParent (id : ObjectId)
  /-- The object to stand before is attached elsewhere. -/
  | notSibling (id : ObjectId)
  | invalidData (reason : ValidationError)
  deriving DecidableEq

namespace StoreError

def object? : StoreError → Option ObjectId
  | noSuchObject id => some id
  | noSuchParent id => some id
  | invalidParent id => some id
  | notSibling id => some id
  | notTransient => none
  | invalidData _ => none

def message (name : ObjectId → String) : StoreError → String
  | notTransient => "revision is not transient"
  | noSuchObject id => "object does not exist: " ++ name id
  | noSuchParent id => "parent does not exist: " ++ name id
  | invalidParent id => "invalid parent: " ++ name id
  | notSibling id => "successor is not a sibling: " ++ name id
  | invalidData reason => "invalid object data: " ++ reason.message

end StoreError

theorem Payload.accept_eq_ok_iff {payload kept : Payload} :
    payload.accept = .ok kept ↔ payload.validate = .ok () ∧ kept = payload.normalize := by
  unfold Payload.accept
  cases payload.validate with
  | error e => simp [Except.map]
  | ok u => simp [Except.map, eq_comm]

end Schematic
