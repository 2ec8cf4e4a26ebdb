import Schematic.Payload.Basic

namespace Schematic

namespace Payload

def color? : Payload → Option Int32
  | arc d => some d.color
  | box d => some d.color
  | circle d => some d.color
  | line d => some d.color
  | net d => some d.color
  | path d => some d.color
  | text d => some d.color
  | component _ => none
  | picture _ => none

def stroke? : Payload → Option Stroke
  | arc d => some d.line
  | box d => some d.line
  | circle d => some d.line
  | line d => some d.line
  | path d => some d.line
  | _ => none

def fill? : Payload → Option Fill
  | box d => some d.fill
  | circle d => some d.fill
  | path d => some d.fill
  | _ => none

def pos? : Payload → Option Point
  | arc d => some d.pos
  | box d => some d.pos
  | circle d => some d.pos
  | component d => some d.pos
  | line d => some d.pos
  | net d => some d.pos
  | picture d => some d.pos
  | text d => some d.pos
  | path _ => none

def textSize? : Payload → Option Int32
  | text d => some d.size
  | _ => none

def angle? : Payload → Option Int32
  | component d => some d.angle
  | picture d => some d.angle
  | text d => some d.angle
  | _ => none

end Payload

/-- A new value for a field that payloads of several kinds have. -/
inductive Change
  | color (value : Int32)
  | stroke (value : Stroke)
  | fill (value : Fill)
  | pos (value : Point)
  | textSize (value : Int32)
  deriving DecidableEq

namespace Change

def applyTo? : Change → Payload → Option Payload
  | color value, .arc d => some (.arc { d with color := value })
  | color value, .box d => some (.box { d with color := value })
  | color value, .circle d => some (.circle { d with color := value })
  | color value, .line d => some (.line { d with color := value })
  | color value, .net d => some (.net { d with color := value })
  | color value, .path d => some (.path { d with color := value })
  | color value, .text d => some (.text { d with color := value })
  | stroke value, .arc d => some (.arc { d with line := value })
  | stroke value, .box d => some (.box { d with line := value })
  | stroke value, .circle d => some (.circle { d with line := value })
  | stroke value, .line d => some (.line { d with line := value })
  | stroke value, .path d => some (.path { d with line := value })
  | fill value, .box d => some (.box { d with fill := value })
  | fill value, .circle d => some (.circle { d with fill := value })
  | fill value, .path d => some (.path { d with fill := value })
  | pos value, .arc d => some (.arc { d with pos := value })
  | pos value, .box d => some (.box { d with pos := value })
  | pos value, .circle d => some (.circle { d with pos := value })
  | pos value, .component d => some (.component { d with pos := value })
  | pos value, .line d => some (.line { d with pos := value })
  | pos value, .net d => some (.net { d with pos := value })
  | pos value, .picture d => some (.picture { d with pos := value })
  | pos value, .text d => some (.text { d with pos := value })
  | textSize value, .text d => some (.text { d with size := value })
  | _, _ => none

theorem kind_applyTo? {change : Change} {payload changed : Payload}
    (h : change.applyTo? payload = some changed) : changed.kind = payload.kind := by
  cases change <;> cases payload <;> simp only [applyTo?, Option.some.injEq, reduceCtorEq] at h <;>
    subst h <;> rfl

end Change

end Schematic
