import Schematic.Attribute.Consensus
import Schematic.Attribute.Field
import Schematic.Store.Revision

namespace Schematic

namespace Revision

def selectedPayloads (r : Revision) (sel : Selection) : List Payload :=
  (r.selected sel).filterMap r.payload?

/-- What the selected objects have in common in a field. Objects that a revision does not have, and
objects whose kind lacks the field, are passed over. -/
def consensus {α : Type} [SameValue α] (r : Revision) (sel : Selection)
    (field? : Payload → Option α) : Consensus α :=
  .ofList ((r.selectedPayloads sel).filterMap field?)

def updates (r : Revision) (sel : Selection) (change : Change) : List (ObjectId × Payload) :=
  (r.selected sel).filterMap fun id =>
    ((r.payload? id).bind change.applyTo?).map fun payload => (id, payload)

def apply (r : Revision) (supply : Supply) (sel : Selection) (change : Change) :
    Except StoreError (Revision × Supply) :=
  r.write supply (r.updates sel change)

end Revision

end Schematic
