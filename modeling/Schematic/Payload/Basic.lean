import Schematic.SameValue

namespace Schematic

inductive ObjectKind
  | arc | box | circle | component | line | net | path | picture | text
  deriving DecidableEq

namespace ObjectKind

def all : List ObjectKind :=
  [arc, box, circle, component, line, net, path, picture, text]

def name : ObjectKind → String
  | arc => "arc"
  | box => "box"
  | circle => "circle"
  | component => "component"
  | line => "line"
  | net => "net"
  | path => "path"
  | picture => "picture"
  | text => "text"

def ofName? (name : String) : Option ObjectKind := all.find? fun kind => kind.name == name

def isContainer (kind : ObjectKind) : Bool := kind == component

theorem ofName?_name (kind : ObjectKind) : ofName? kind.name = some kind := by
  cases kind <;> decide

end ObjectKind

structure Point where
  x : Binary64 := .zero
  y : Binary64 := .zero
  deriving DecidableEq

/-- How an outline is drawn. The cap is 0 (none), 1 (square) or 2 (round); the dash is 0 (solid),
1 (dotted), 2 (dashed), 3 (center) or 4 (phantom). -/
structure Stroke where
  width : Binary64 := .zero
  cap : Int32 := 0
  dash : Int32 := 0
  dashLength : Binary64 := .zero
  dashSpace : Binary64 := .zero
  deriving DecidableEq

namespace Stroke

def solid (width : Binary64) : Stroke := { width }

end Stroke

/-- How an area is filled. The style is 0 (hollow), 1 (filled), 2 (mesh), 3 (hatch) or 4 (void);
a hatch has one family of parallel lines and a mesh has two. -/
structure Fill where
  style : Int32 := 0
  width : Binary64 := .zero
  angle0 : Int32 := 0
  pitch0 : Binary64 := .zero
  angle1 : Int32 := 0
  pitch1 : Binary64 := .zero
  deriving DecidableEq

namespace Fill

def mesh : Int32 := 2

def hatch : Int32 := 3

def isHatched (fill : Fill) : Bool := fill.style == mesh || fill.style == hatch

end Fill

structure Arc where
  pos : Point := {}
  radius : Binary64 := .zero
  startAngle : Int32 := 0
  sweepAngle : Int32 := 0
  color : Int32 := 0
  line : Stroke := {}
  deriving DecidableEq

structure Box where
  pos : Point := {}
  size : Point := {}
  color : Int32 := 0
  line : Stroke := {}
  fill : Fill := {}
  deriving DecidableEq

structure Circle where
  pos : Point := {}
  radius : Binary64 := .zero
  color : Int32 := 0
  line : Stroke := {}
  fill : Fill := {}
  deriving DecidableEq

structure Component where
  pos : Point := {}
  selectable : Bool := false
  angle : Int32 := 0
  mirror : Bool := false
  symbol : Resource := .empty
  deriving DecidableEq

structure Line where
  pos : Point := {}
  size : Point := {}
  color : Int32 := 0
  line : Stroke := {}
  deriving DecidableEq

/-- A segment of a net or of a bus, or a pin. -/
structure Net where
  pos : Point := {}
  size : Point := {}
  color : Int32 := 0
  isBus : Bool := false
  isPin : Bool := false
  isInverted : Bool := false
  deriving DecidableEq

structure Path where
  commands : String := ""
  color : Int32 := 0
  line : Stroke := {}
  fill : Fill := {}
  deriving DecidableEq

structure Picture where
  pos : Point := {}
  size : Point := {}
  angle : Int32 := 0
  mirror : Bool := false
  pixmap : Resource := .empty
  deriving DecidableEq

/-- Free text, or an attribute, of which name and value (0), the value (1) or the name (2) is
shown. The alignment is one of nine anchor points. -/
structure Text where
  pos : Point := {}
  color : Int32 := 0
  size : Int32 := 0
  visible : Bool := false
  shown : Int32 := 0
  angle : Int32 := 0
  alignment : Int32 := 0
  text : String := ""
  deriving DecidableEq

inductive Payload
  | arc (fields : Arc)
  | box (fields : Box)
  | circle (fields : Circle)
  | component (fields : Component)
  | line (fields : Line)
  | net (fields : Net)
  | path (fields : Path)
  | picture (fields : Picture)
  | text (fields : Text)
  deriving DecidableEq

namespace Payload

def kind : Payload → ObjectKind
  | arc _ => .arc
  | box _ => .box
  | circle _ => .circle
  | component _ => .component
  | line _ => .line
  | net _ => .net
  | path _ => .path
  | picture _ => .picture
  | text _ => .text

/-- The payload of a kind with every field zero, false or empty. -/
def blank : ObjectKind → Payload
  | .arc => arc {}
  | .box => box {}
  | .circle => circle {}
  | .component => component {}
  | .line => line {}
  | .net => net {}
  | .path => path {}
  | .picture => picture {}
  | .text => text {}

def ofKind? (kind : ObjectKind) (payload : Payload) : Option Payload :=
  if payload.kind = kind then some payload else none

def resource : Payload → Resource
  | component fields => fields.symbol
  | picture fields => fields.pixmap
  | _ => .empty

end Payload

end Schematic
