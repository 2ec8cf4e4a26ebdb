import Schematic.Binary64.Text
import Schematic.Payload.Basic

namespace Schematic

/-- The field is named by its path inside the payload. -/
inductive ValidationError
  /-- The number is neither zero nor finite and normal. -/
  | notFinite (field : String) (value : Binary64)
  | negative (field : String) (value : Binary64)
  /-- The bound is excluded. -/
  | outOfRange (field : String) (value bound : Int32)
  /-- The angle is not a multiple of a right angle within one turn. -/
  | invalidAngle (field : String) (value : Int32)
  | invertedNotPin
  deriving DecidableEq

/-- Numbers in messages are written without an exponent, whole numbers without a point. -/
def messageLayout : NumberLayout where
  tie := .up
  positional _ := true
  afterWhole := ""
  exponentMark _ := "e"
  infinity := "inf"
  nan := "NaN"

namespace ValidationError

def field : ValidationError → String
  | notFinite field _ => field
  | negative field _ => field
  | outOfRange field _ _ => field
  | invalidAngle field _ => field
  | invertedNotPin => "is_inverted"

def message : ValidationError → String
  | notFinite field value =>
      field ++ " is not zero or a finite normal number: " ++ messageLayout.write value
  | negative field value => field ++ " must not be negative: " ++ messageLayout.write value
  | outOfRange field value bound =>
      field ++ " out of range [0, " ++ toString bound.toInt ++ "): " ++ toString value.toInt
  | invalidAngle field value =>
      field ++ " must be one of 0, 90, 180, 270: " ++ toString value.toInt
  | invertedNotPin => "inverted net must be a pin"

end ValidationError

inductive Constraint
  | finite (field : String) (value : Binary64)
  | finitePositive (field : String) (value : Binary64)
  | inRange (field : String) (value bound : Int32)
  | natural (field : String) (value : Int32)
  | angle (field : String) (value : Int32)
  | invertedPin (isInverted isPin : Bool)
  deriving DecidableEq

namespace Constraint

def error? : Constraint → Option ValidationError
  | finite field value =>
      if value.isZero || value.isNormal then none else some (.notFinite field value)
  | finitePositive field value =>
      if value.isZero || value.isNormal then
        if value.isNegative then some (.negative field value) else none
      else some (.notFinite field value)
  | inRange field value bound =>
      if 0 ≤ value ∧ value < bound then none else some (.outOfRange field value bound)
  | natural field value =>
      if value < 0 then some (.outOfRange field value Int32.maxValue) else none
  | angle field value =>
      if value = 0 ∨ value = 90 ∨ value = 180 ∨ value = 270 then none
      else some (.invalidAngle field value)
  | invertedPin isInverted isPin =>
      if isInverted && !isPin then some .invertedNotPin else none

def check (constraints : List Constraint) : Except ValidationError Unit :=
  match constraints.findSome? error? with
  | some e => .error e
  | none => .ok ()

end Constraint

open Constraint (finite finitePositive inRange natural angle invertedPin)

def colorCount : Int32 := 21

def capCount : Int32 := 3

def dashCount : Int32 := 5

def fillCount : Int32 := 5

def shownCount : Int32 := 3

def alignmentCount : Int32 := 9

def colorConstraint (value : Int32) : Constraint := inRange "color" value colorCount

def posConstraints (pos : Point) : List Constraint :=
  [finite "pos.x" pos.x, finite "pos.y" pos.y]

def sizeConstraints (size : Point) : List Constraint :=
  [finite "size.x" size.x, finite "size.y" size.y]

/-- The dash measures are constrained for every style of dash, those that ignore them included. -/
def Stroke.constraints (line : Stroke) : List Constraint :=
  [finitePositive "line.width" line.width,
    inRange "line.cap_style" line.cap capCount,
    inRange "line.dash_style" line.dash dashCount,
    finitePositive "line.dash_length" line.dashLength,
    finitePositive "line.dash_space" line.dashSpace]

/-- The hatch measures are constrained for every style of fill, and the hatch angles for none. -/
def Fill.constraints (fill : Fill) : List Constraint :=
  [inRange "fill.type" fill.style fillCount,
    finitePositive "fill.width" fill.width,
    finitePositive "fill.pitch0" fill.pitch0,
    finitePositive "fill.pitch1" fill.pitch1]

namespace Payload

def constraints : Payload → List Constraint
  | arc d =>
      posConstraints d.pos ++ finitePositive "radius" d.radius :: colorConstraint d.color ::
        d.line.constraints
  | box d =>
      posConstraints d.pos ++ sizeConstraints d.size ++ colorConstraint d.color ::
        d.line.constraints ++ d.fill.constraints
  | circle d =>
      posConstraints d.pos ++ finitePositive "radius" d.radius :: colorConstraint d.color ::
        d.line.constraints ++ d.fill.constraints
  | component d => posConstraints d.pos ++ [angle "angle" d.angle]
  | line d =>
      posConstraints d.pos ++ sizeConstraints d.size ++ colorConstraint d.color ::
        d.line.constraints
  | net d =>
      posConstraints d.pos ++ sizeConstraints d.size ++
        [colorConstraint d.color, invertedPin d.isInverted d.isPin]
  | path d => colorConstraint d.color :: d.line.constraints ++ d.fill.constraints
  | picture d => posConstraints d.pos ++ sizeConstraints d.size ++ [angle "angle" d.angle]
  | text d =>
      posConstraints d.pos ++
        [colorConstraint d.color, natural "text_size" d.size,
          inRange "show_name_value" d.shown shownCount, angle "angle" d.angle,
          inRange "alignment" d.alignment alignmentCount]

def validate (payload : Payload) : Except ValidationError Unit :=
  Constraint.check payload.constraints

end Payload

end Schematic
