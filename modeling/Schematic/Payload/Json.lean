import Schematic.Json.Parser
import Schematic.Json.Printer
import Schematic.Payload.Basic

/-!
A payload is written as an object whose first member names the kind; resources are left out. It is
read with the kind given beforehand: a field that is missing is zero, false or empty, and members
that are no fields are passed over.
-/

namespace Schematic

/-! ### Writing -/

namespace Json

def ofInt32 (n : Int32) : Json := .integer n.toInt

end Json

open Json (ofInt32)

def Point.toJson (p : Point) : Json := .object [("x", .float p.x), ("y", .float p.y)]

def Stroke.toJson (line : Stroke) : Json :=
  .object [("width", .float line.width), ("cap_style", ofInt32 line.cap),
    ("dash_style", ofInt32 line.dash), ("dash_length", .float line.dashLength),
    ("dash_space", .float line.dashSpace)]

def Fill.toJson (fill : Fill) : Json :=
  .object [("type", ofInt32 fill.style), ("width", .float fill.width),
    ("angle0", ofInt32 fill.angle0), ("pitch0", .float fill.pitch0),
    ("angle1", ofInt32 fill.angle1), ("pitch1", .float fill.pitch1)]

namespace Payload

def members : Payload → List (String × Json)
  | arc d =>
      [("pos", d.pos.toJson), ("radius", .float d.radius), ("startangle", ofInt32 d.startAngle),
        ("sweepangle", ofInt32 d.sweepAngle), ("color", ofInt32 d.color), ("line", d.line.toJson)]
  | box d =>
      [("pos", d.pos.toJson), ("size", d.size.toJson), ("color", ofInt32 d.color),
        ("line", d.line.toJson), ("fill", d.fill.toJson)]
  | circle d =>
      [("pos", d.pos.toJson), ("radius", .float d.radius), ("color", ofInt32 d.color),
        ("line", d.line.toJson), ("fill", d.fill.toJson)]
  | component d =>
      [("pos", d.pos.toJson), ("selectable", .bool d.selectable), ("angle", ofInt32 d.angle),
        ("mirror", .bool d.mirror)]
  | line d =>
      [("pos", d.pos.toJson), ("size", d.size.toJson), ("color", ofInt32 d.color),
        ("line", d.line.toJson)]
  | net d =>
      [("pos", d.pos.toJson), ("size", d.size.toJson), ("color", ofInt32 d.color),
        ("is_bus", .bool d.isBus), ("is_pin", .bool d.isPin), ("is_inverted", .bool d.isInverted)]
  | path d =>
      [("pathdata", .text d.commands), ("color", ofInt32 d.color), ("line", d.line.toJson),
        ("fill", d.fill.toJson)]
  | picture d =>
      [("pos", d.pos.toJson), ("size", d.size.toJson), ("angle", ofInt32 d.angle),
        ("mirror", .bool d.mirror)]
  | text d =>
      [("pos", d.pos.toJson), ("color", ofInt32 d.color), ("text_size", ofInt32 d.size),
        ("visibility", .bool d.visible), ("show_name_value", ofInt32 d.shown),
        ("angle", ofInt32 d.angle), ("alignment", ofInt32 d.alignment), ("text", .text d.text)]

def toJson (payload : Payload) : Json :=
  .object (("type", .text payload.kind.name) :: payload.members)

end Payload

/-! ### Reading -/

namespace Json

def int32? : Json → Option Int32
  | .integer n =>
      if Int32.minValue.toInt ≤ n ∧ n ≤ Int32.maxValue.toInt then some (.ofInt n) else none
  | _ => none

def binary64? : Json → Option Binary64
  | .integer n => some (.ofInt n)
  | .float x => some x
  | _ => none

def bool? : Json → Option Bool
  | .bool b => some b
  | _ => none

def text? : Json → Option String
  | .text s => some s
  | _ => none

abbrev Record := String → Option Json

/-- A value as a group with the given names, in order: an object, or an array of as many values as
there are names at most. -/
def record? (names : List String) : Json → Option Record
  | .object ms => some (member? ms)
  | .array xs =>
      if xs.length ≤ names.length then some fun name => (names.zip xs).lookup name else none
  | _ => none

def Record.get? {α : Type} (r : Record) (name : String) (read? : Json → Option α) (default : α) :
    Option α :=
  match r name with
  | some json => read? json
  | none => some default

end Json

open Json (int32? binary64? bool? text? record?)

def Point.ofJson? (json : Json) : Option Point := do
  let r ← record? ["x", "y"] json
  return {
    x := ← r.get? "x" binary64? .zero
    y := ← r.get? "y" binary64? .zero }

def Stroke.ofJson? (json : Json) : Option Stroke := do
  let r ← record? ["width", "cap_style", "dash_style", "dash_length", "dash_space"] json
  return {
    width := ← r.get? "width" binary64? .zero
    cap := ← r.get? "cap_style" int32? 0
    dash := ← r.get? "dash_style" int32? 0
    dashLength := ← r.get? "dash_length" binary64? .zero
    dashSpace := ← r.get? "dash_space" binary64? .zero }

def Fill.ofJson? (json : Json) : Option Fill := do
  let r ← record? ["type", "width", "angle0", "pitch0", "angle1", "pitch1"] json
  return {
    style := ← r.get? "type" int32? 0
    width := ← r.get? "width" binary64? .zero
    angle0 := ← r.get? "angle0" int32? 0
    pitch0 := ← r.get? "pitch0" binary64? .zero
    angle1 := ← r.get? "angle1" int32? 0
    pitch1 := ← r.get? "pitch1" binary64? .zero }

inductive PayloadError
  | notJson
  | notObject
  | badField
  deriving DecidableEq

namespace PayloadError

def message? : PayloadError → Option String
  | notJson => some "payload is not JSON"
  | notObject => some "payload must be a JSON object"
  | badField => none

end PayloadError

namespace Payload

def ofRecord? (kind : ObjectKind) (r : Json.Record) : Option Payload :=
  match kind with
  | .arc => do return arc {
      pos := ← r.get? "pos" Point.ofJson? {}
      radius := ← r.get? "radius" binary64? .zero
      startAngle := ← r.get? "startangle" int32? 0
      sweepAngle := ← r.get? "sweepangle" int32? 0
      color := ← r.get? "color" int32? 0
      line := ← r.get? "line" Stroke.ofJson? {} }
  | .box => do return box {
      pos := ← r.get? "pos" Point.ofJson? {}
      size := ← r.get? "size" Point.ofJson? {}
      color := ← r.get? "color" int32? 0
      line := ← r.get? "line" Stroke.ofJson? {}
      fill := ← r.get? "fill" Fill.ofJson? {} }
  | .circle => do return circle {
      pos := ← r.get? "pos" Point.ofJson? {}
      radius := ← r.get? "radius" binary64? .zero
      color := ← r.get? "color" int32? 0
      line := ← r.get? "line" Stroke.ofJson? {}
      fill := ← r.get? "fill" Fill.ofJson? {} }
  | .component => do return component {
      pos := ← r.get? "pos" Point.ofJson? {}
      selectable := ← r.get? "selectable" bool? false
      angle := ← r.get? "angle" int32? 0
      mirror := ← r.get? "mirror" bool? false }
  | .line => do return line {
      pos := ← r.get? "pos" Point.ofJson? {}
      size := ← r.get? "size" Point.ofJson? {}
      color := ← r.get? "color" int32? 0
      line := ← r.get? "line" Stroke.ofJson? {} }
  | .net => do return net {
      pos := ← r.get? "pos" Point.ofJson? {}
      size := ← r.get? "size" Point.ofJson? {}
      color := ← r.get? "color" int32? 0
      isBus := ← r.get? "is_bus" bool? false
      isPin := ← r.get? "is_pin" bool? false
      isInverted := ← r.get? "is_inverted" bool? false }
  | .path => do return path {
      commands := ← r.get? "pathdata" text? ""
      color := ← r.get? "color" int32? 0
      line := ← r.get? "line" Stroke.ofJson? {}
      fill := ← r.get? "fill" Fill.ofJson? {} }
  | .picture => do return picture {
      pos := ← r.get? "pos" Point.ofJson? {}
      size := ← r.get? "size" Point.ofJson? {}
      angle := ← r.get? "angle" int32? 0
      mirror := ← r.get? "mirror" bool? false }
  | .text => do return text {
      pos := ← r.get? "pos" Point.ofJson? {}
      color := ← r.get? "color" int32? 0
      size := ← r.get? "text_size" int32? 0
      visible := ← r.get? "visibility" bool? false
      shown := ← r.get? "show_name_value" int32? 0
      angle := ← r.get? "angle" int32? 0
      alignment := ← r.get? "alignment" int32? 0
      text := ← r.get? "text" text? "" }

def ofJson (kind : ObjectKind) : Json → Except PayloadError Payload
  | .object ms =>
      match ofRecord? kind (Json.member? ms) with
      | some payload => .ok payload
      | none => .error .badField
  | _ => .error .notObject

def ofText (kind : ObjectKind) (text : String) : Except PayloadError Payload :=
  match Json.parse? text with
  | some json => ofJson kind json
  | none => .error .notJson

end Payload

end Schematic
