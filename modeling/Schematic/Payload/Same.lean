import Schematic.Payload.Basic

namespace Schematic

instance : SameValue Point := ⟨fun a b => same a.x b.x && same a.y b.y⟩

instance : SameValue Stroke := ⟨fun a b =>
  same a.width b.width && same a.cap b.cap && same a.dash b.dash &&
    same a.dashLength b.dashLength && same a.dashSpace b.dashSpace⟩

instance : SameValue Fill := ⟨fun a b =>
  same a.style b.style && same a.width b.width && same a.angle0 b.angle0 &&
    same a.pitch0 b.pitch0 && same a.angle1 b.angle1 && same a.pitch1 b.pitch1⟩

instance : SameValue Arc := ⟨fun a b =>
  same a.pos b.pos && same a.radius b.radius && same a.startAngle b.startAngle &&
    same a.sweepAngle b.sweepAngle && same a.color b.color && same a.line b.line⟩

instance : SameValue Box := ⟨fun a b =>
  same a.pos b.pos && same a.size b.size && same a.color b.color && same a.line b.line &&
    same a.fill b.fill⟩

instance : SameValue Circle := ⟨fun a b =>
  same a.pos b.pos && same a.radius b.radius && same a.color b.color && same a.line b.line &&
    same a.fill b.fill⟩

instance : SameValue Component := ⟨fun a b =>
  same a.pos b.pos && same a.selectable b.selectable && same a.angle b.angle &&
    same a.mirror b.mirror && same a.symbol b.symbol⟩

instance : SameValue Line := ⟨fun a b =>
  same a.pos b.pos && same a.size b.size && same a.color b.color && same a.line b.line⟩

instance : SameValue Net := ⟨fun a b =>
  same a.pos b.pos && same a.size b.size && same a.color b.color && same a.isBus b.isBus &&
    same a.isPin b.isPin && same a.isInverted b.isInverted⟩

instance : SameValue Path := ⟨fun a b =>
  same a.commands b.commands && same a.color b.color && same a.line b.line && same a.fill b.fill⟩

instance : SameValue Picture := ⟨fun a b =>
  same a.pos b.pos && same a.size b.size && same a.angle b.angle && same a.mirror b.mirror &&
    same a.pixmap b.pixmap⟩

instance : SameValue Text := ⟨fun a b =>
  same a.pos b.pos && same a.color b.color && same a.size b.size && same a.visible b.visible &&
    same a.shown b.shown && same a.angle b.angle && same a.alignment b.alignment &&
    same a.text b.text⟩

def Payload.sameAs : Payload → Payload → Bool
  | arc a, arc b => same a b
  | box a, box b => same a b
  | circle a, circle b => same a b
  | component a, component b => same a b
  | line a, line b => same a b
  | net a, net b => same a b
  | path a, path b => same a b
  | picture a, picture b => same a b
  | text a, text b => same a b
  | _, _ => false

instance : SameValue Payload := ⟨Payload.sameAs⟩

end Schematic
