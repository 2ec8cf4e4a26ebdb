import Schematic.Attribute.Consensus
import Schematic.Attribute.Field
import Schematic.Proofs.Payload.Kept

namespace Schematic

/-- A field that payloads of several kinds have and that can be changed. -/
inductive Attribute
  | color | stroke | fill | pos | textSize
  deriving DecidableEq

namespace Attribute

abbrev Value : Attribute → Type
  | color => Int32
  | stroke => Stroke
  | fill => Fill
  | pos => Point
  | textSize => Int32

instance : (a : Attribute) → SameValue a.Value
  | color => inferInstanceAs (SameValue Int32)
  | stroke => inferInstanceAs (SameValue Stroke)
  | fill => inferInstanceAs (SameValue Fill)
  | pos => inferInstanceAs (SameValue Point)
  | textSize => inferInstanceAs (SameValue Int32)

instance : (a : Attribute) → LawfulSame a.Value
  | color => inferInstanceAs (LawfulSame Int32)
  | stroke => inferInstanceAs (LawfulSame Stroke)
  | fill => inferInstanceAs (LawfulSame Fill)
  | pos => inferInstanceAs (LawfulSame Point)
  | textSize => inferInstanceAs (LawfulSame Int32)

def kinds : Attribute → List ObjectKind
  | color => [.arc, .box, .circle, .line, .net, .path, .text]
  | stroke => [.arc, .box, .circle, .line, .path]
  | fill => [.box, .circle, .path]
  | pos => [.arc, .box, .circle, .component, .line, .net, .picture, .text]
  | textSize => [.text]

def read? : (a : Attribute) → Payload → Option a.Value
  | color => Payload.color?
  | stroke => Payload.stroke?
  | fill => Payload.fill?
  | pos => Payload.pos?
  | textSize => Payload.textSize?

def change : (a : Attribute) → a.Value → Change
  | color => .color
  | stroke => .stroke
  | fill => .fill
  | pos => .pos
  | textSize => .textSize

def normalize : (a : Attribute) → a.Value → a.Value
  | color => id
  | stroke => Stroke.normalize
  | fill => Fill.normalize
  | pos => id
  | textSize => id

/-- The constraints on the field alone. -/
def constraints : (a : Attribute) → a.Value → List Constraint
  | color => fun value => [colorConstraint value]
  | stroke => Stroke.constraints
  | fill => Fill.constraints
  | pos => posConstraints
  | textSize => fun value => [.natural "text_size" value]

def check (a : Attribute) (value : a.Value) : Except ValidationError Unit :=
  Constraint.check (a.constraints value)

variable {a : Attribute} {value old : a.Value} {payload changed p q : Payload}

/-! ### Readers and changes -/

theorem isSome_read?_iff : (a.read? payload).isSome = true ↔ payload.kind ∈ a.kinds := by
  cases a <;> cases payload <;>
    simp [read?, Payload.color?, Payload.stroke?, Payload.fill?, Payload.pos?, Payload.textSize?,
      Payload.kind, kinds]

theorem isSome_applyTo?_iff :
    ((a.change value).applyTo? payload).isSome = true ↔ payload.kind ∈ a.kinds := by
  cases a <;> cases payload <;> simp [change, Change.applyTo?, Payload.kind, kinds]

theorem read?_normalize (h : (a.change value).applyTo? payload = some changed) :
    a.read? changed.normalize = some (a.normalize value) := by
  cases a <;> cases payload <;>
    simp only [change, Change.applyTo?, Option.some.injEq, reduceCtorEq] at h <;> subst h <;> rfl

/-- What a change has replaced can be put back, so that a change leaves all other fields alone. -/
theorem applyTo?_read? (hold : a.read? payload = some old)
    (h : (a.change value).applyTo? payload = some changed) :
    (a.change old).applyTo? changed = some payload := by
  cases a <;> cases payload <;>
    simp only [change, Change.applyTo?, Option.some.injEq, reduceCtorEq] at h <;> subst h <;>
    cases hold <;> rfl

theorem applyTo?_normalize (hpayload : payload.normalize = payload)
    (h : (a.change value).applyTo? payload = some changed) :
    (a.change (a.normalize value)).applyTo? payload = some changed.normalize := by
  cases a <;> cases payload <;> rename_i d <;> cases d <;>
    simp only [change, Change.applyTo?, Option.some.injEq, reduceCtorEq] at h <;> subst h <;>
    simp_all [normalize, change, Change.applyTo?, Payload.normalize]

theorem findSome?_cons_eq_or {c : Constraint} {cs : List Constraint} :
    (c :: cs).findSome? Constraint.error? = c.error?.or (cs.findSome? Constraint.error?) := by
  rw [List.findSome?_cons]
  cases c.error? <;> rfl

/-- A valid payload in which one field is changed is as valid as the new value of the field. -/
theorem validate_of_applyTo? (hpayload : payload.validate = .ok ())
    (h : (a.change value).applyTo? payload = some changed) :
    changed.validate = a.check value := by
  rw [Payload.validate_eq_ok_iff, ← List.findSome?_eq_none_iff] at hpayload
  suffices hsame : changed.constraints.findSome? Constraint.error? =
      (a.constraints value).findSome? Constraint.error? by
    rw [Payload.validate, check, Constraint.check, hsame, Constraint.check]
  cases a <;> cases payload <;>
    simp only [change, Change.applyTo?, Option.some.injEq, reduceCtorEq] at h <;> subst h <;>
    simp only [Payload.constraints, constraints, List.findSome?_append, findSome?_cons_eq_or,
      List.findSome?_nil, Option.or_eq_none_iff] at hpayload ⊢ <;>
    simp only [hpayload, Option.none_or, Option.or_none]

theorem same_read? (h : same p q = true) : same (a.read? p) (a.read? q) = true := by
  cases p <;> cases q
  any_goals cases h
  all_goals
    simp only [same, Payload.sameAs, Bool.and_eq_true] at h
    cases a <;> simp [same, read?, Payload.color?, Payload.stroke?, Payload.fill?, Payload.pos?,
      Payload.textSize?, h]

end Attribute
end Schematic
