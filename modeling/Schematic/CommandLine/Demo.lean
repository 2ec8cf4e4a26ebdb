import Schematic.Binary64.Rounding
import Schematic.Json.Printer
import Schematic.Session

namespace Schematic.CommandLine

structure DemoRow where
  id : ObjectId
  kind : ObjectKind
  parent? : Option ObjectId
  index : Nat

structure DemoRevision where
  name : String
  transient : Bool
  rows : List DemoRow

structure DemoReport where
  revisions : List DemoRevision
  rejected : List StoreError
  difference : Difference
  color? : Option Int32

namespace DemoRow

def of? (r : Revision) (id : ObjectId) : Option DemoRow := do
  let (parent?, index) ← r.location? id
  let kind ← r.kind? id
  return { id, kind, parent?, index }

def toJson (name : ObjectId → String) (row : DemoRow) : Json :=
  .object [("id", .text (name row.id)), ("type", .text row.kind.name),
    ("attached_to", (row.parent?.map fun p => Json.text (name p)).getD .null),
    ("position", .integer row.index)]

def line (name : ObjectId → String) (row : DemoRow) : String :=
  (if row.parent?.isSome then "    " else "  ") ++ name row.id ++ " " ++
    row.kind.name ++ String.ofList (List.replicate (9 - row.kind.name.length) ' ') ++ " " ++
    (row.parent?.map name).getD "top" ++ "[" ++ toString row.index ++ "]\n"

end DemoRow

namespace DemoRevision

def of (name : String) (r : Revision) : DemoRevision where
  name
  transient := r.transient
  rows := r.objects.filterMap (DemoRow.of? r)

def toJson (name : ObjectId → String) (r : DemoRevision) : Json :=
  .object [("name", .text r.name), ("transient", .bool r.transient),
    ("objects", .array (r.rows.map (DemoRow.toJson name)))]

def lines (name : ObjectId → String) (r : DemoRevision) : String :=
  "revision " ++ r.name ++ " (" ++ toString r.rows.length ++ " objects, " ++
    (if r.transient then "transient" else "final") ++ ")\n" ++
    String.join (r.rows.map (DemoRow.line name))

end DemoRevision

namespace DemoReport

def toJson (name : ObjectId → String) (report : DemoReport) : Json :=
  let names (ids : List ObjectId) : Json := .array (ids.map fun id => .text (name id))
  .object [("revisions", .array (report.revisions.map (DemoRevision.toJson name))),
    ("rejected", .array (report.rejected.map fun e => .text (e.message ObjectId.text))),
    ("added", names report.difference.added),
    ("removed", names report.difference.removed),
    ("modified", names report.difference.modified),
    ("color", (report.color?.map fun c => Json.integer c.toInt).getD .null)]

def listing (name : ObjectId → String) (title : String) (ids : List ObjectId) : String :=
  "  " ++ title ++ ": " ++
    (if ids.isEmpty then "none" else ", ".intercalate (ids.map name)) ++ "\n"

def lines (name : ObjectId → String) (report : DemoReport) : String :=
  String.join (report.revisions.map (DemoRevision.lines name)) ++
    (report.color?.map fun c => "color after bulk edit: " ++ toString c.toInt ++ "\n").getD "" ++
    String.join
      (report.rejected.map fun e => "✗ rejected: " ++ e.message ObjectId.text ++ "\n") ++
    "changes base → edit\n" ++
    listing name "added" report.difference.added ++
    listing name "removed" report.difference.removed ++
    listing name "modified" report.difference.modified

end DemoReport

private def rejection {α : Type} : Except StoreError α → List StoreError
  | .error e => [e]
  | .ok _ => []

def demo (supply : Supply) : Except StoreError DemoReport := do
  let component : Component :=
    { pos := ⟨.ofNat 100, .ofNat 200⟩, selectable := true }
  let net : Net := { size := ⟨.ofNat 400, .zero⟩, color := 4 }
  let label : Text := { pos := ⟨.ofNat 100, .ofNat 250⟩, text := "refdes=R1", size := 10 }
  let (componentId, base, supply) ← ({} : Revision).add supply (.component component) .top
  let (netId, base, supply) ← base.add supply (.net net) .top
  let (labelId, base, supply) ← base.add supply (.text label) ⟨some componentId, none⟩
  let base := base.finalize
  let edit ← base.fork.relocate labelId ⟨none, some netId⟩
  let all := Selection.all edit
  let (edit, _) ← edit.apply supply all (.color 3)
  let color? := (edit.consensus all Payload.color?).value?
  let edit ← edit.delete netId
  let rejected := rejection (edit.relocate componentId ⟨some labelId, none⟩) ++
    rejection (base.delete componentId)
  let edit := edit.finalize
  return {
    revisions := [.of "base" base, .of "edit" edit]
    rejected
    difference := .between base edit
    color? }

end Schematic.CommandLine
