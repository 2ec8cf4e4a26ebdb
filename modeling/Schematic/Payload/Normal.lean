import Schematic.Payload.Basic

namespace Schematic

namespace Stroke

def usesLength (line : Stroke) : Bool := line.dash != 0 && line.dash != 1

def usesSpace (line : Stroke) : Bool := line.dash != 0

def normalize (line : Stroke) : Stroke :=
  { line with
    dashLength := if line.usesLength then line.dashLength else .zero
    dashSpace := if line.usesSpace then line.dashSpace else .zero }

end Stroke

namespace Fill

def isMesh (fill : Fill) : Bool := fill.style == mesh

def normalize (fill : Fill) : Fill :=
  { fill with
    width := if fill.isHatched then fill.width else .zero
    angle0 := if fill.isHatched then fill.angle0 else 0
    pitch0 := if fill.isHatched then fill.pitch0 else .zero
    angle1 := if fill.isMesh then fill.angle1 else 0
    pitch1 := if fill.isMesh then fill.pitch1 else .zero }

end Fill

namespace Payload

def normalize : Payload → Payload
  | arc d => arc { d with line := d.line.normalize }
  | box d => box { d with line := d.line.normalize, fill := d.fill.normalize }
  | circle d => circle { d with line := d.line.normalize, fill := d.fill.normalize }
  | line d => line { d with line := d.line.normalize }
  | path d => path { d with line := d.line.normalize, fill := d.fill.normalize }
  | component d => component d
  | net d => net d
  | picture d => picture d
  | text d => text d

end Payload

namespace Stroke

@[simp] theorem normalize_normalize (line : Stroke) :
    line.normalize.normalize = line.normalize := by
  cases h : line.usesLength <;> cases h' : line.usesSpace <;>
    simp_all [normalize, usesLength, usesSpace]

end Stroke

namespace Fill

@[simp] theorem normalize_normalize (fill : Fill) : fill.normalize.normalize = fill.normalize := by
  cases h : fill.isHatched <;> cases h' : fill.isMesh <;>
    simp_all [normalize, isHatched, isMesh]

end Fill

namespace Payload

@[simp] theorem normalize_normalize (payload : Payload) :
    payload.normalize.normalize = payload.normalize := by
  cases payload <;> simp [normalize, Stroke.normalize_normalize, Fill.normalize_normalize]

@[simp] theorem kind_normalize (payload : Payload) : payload.normalize.kind = payload.kind := by
  cases payload <;> rfl

end Payload

end Schematic
