import Schematic.Proofs.Attribute.Field
import Schematic.Proofs.Payload.NormalForm

namespace Schematic

/-- A field that is read from many objects at once: one that can be changed so, or the angle. -/
inductive Trait
  | changeable (a : Attribute)
  | angle
  deriving DecidableEq

namespace Trait

abbrev Value : Trait → Type
  | changeable a => a.Value
  | angle => Int32

instance : (t : Trait) → SameValue t.Value
  | changeable a => inferInstanceAs (SameValue a.Value)
  | angle => inferInstanceAs (SameValue Int32)

instance : (t : Trait) → LawfulSame t.Value
  | changeable a => inferInstanceAs (LawfulSame a.Value)
  | angle => inferInstanceAs (LawfulSame Int32)

def read? : (t : Trait) → Payload → Option t.Value
  | changeable a => a.read?
  | angle => Payload.angle?

def kinds : Trait → List ObjectKind
  | changeable a => a.kinds
  | angle => [.component, .picture, .text]

/-- What a value comes to, path by path. -/
def fields : (t : Trait) → t.Value → List Field
  | changeable .color => fun value => [⟨"color", .integer value⟩]
  | changeable .stroke => Stroke.fields
  | changeable .fill => Fill.fields
  | changeable .pos => Payload.posFields
  | changeable .textSize => fun value => [⟨"text_size", .integer value⟩]
  | angle => fun value => [⟨"angle", .integer value⟩]

/-- The payload is of a kind that has the field, and this value stands under the paths of it. -/
structure Has (t : Trait) (payload : Payload) (x : t.Value) : Prop where
  kind_mem : payload.kind ∈ t.kinds
  value?_eq : ∀ field ∈ t.fields x, payload.value? field.path = some field.value

variable {t : Trait} {payload p q : Payload} {x y : t.Value}

theorem isSome_read?_iff : (t.read? payload).isSome = true ↔ payload.kind ∈ t.kinds := by
  cases t with
  | changeable a => exact Attribute.isSome_read?_iff
  | angle => cases payload <;> simp [read?, Payload.angle?, Payload.kind, kinds]

theorem mem_fields_of_read? (h : t.read? payload = some x) :
    ∀ field ∈ t.fields x, field ∈ payload.fields := by
  intro field hfield
  rcases t with (_ | _ | _ | _ | _) | _ <;> cases payload <;> cases h <;>
    simp_all [fields, Payload.fields]

theorem has_of_read? (h : t.read? payload = some x) : t.Has payload x where
  kind_mem := isSome_read?_iff.mp (Option.isSome_of_eq_some h)
  value?_eq field hfield := Payload.value?_eq_of_mem (mem_fields_of_read? h field hfield)

theorem Has.unique (hx : t.Has payload x) (hy : t.Has payload y) : x = y := by
  have hvalue : ∀ f ∈ t.fields x, ∀ f' ∈ t.fields y, f.path = f'.path → f.value = f'.value := by
    intro f hf f' hf' hpath
    have hfound := hx.value?_eq f hf
    rw [hpath, hy.value?_eq f' hf'] at hfound
    exact (Option.some.inj hfound).symm
  rcases t with (_ | _ | _ | _ | _) | _ <;>
    simp [fields, Payload.posFields, Stroke.fields, Fill.fields] at hvalue <;>
    simp_all [Point.eq_iff, Stroke.eq_iff, Fill.eq_iff]

theorem read?_eq_some_iff : t.read? payload = some x ↔ t.Has payload x := by
  refine ⟨has_of_read?, fun h => ?_⟩
  obtain ⟨y, hy⟩ := Option.isSome_iff_exists.mp (isSome_read?_iff.mpr h.kind_mem)
  rw [hy, h.unique (has_of_read? hy)]

theorem exists_has_iff : (∃ x, t.Has payload x) ↔ payload.kind ∈ t.kinds := by
  rw [← isSome_read?_iff, Option.isSome_iff_exists]
  exact exists_congr fun x => read?_eq_some_iff.symm

theorem same_read? (h : same p q = true) : same (t.read? p) (t.read? q) = true := by
  cases t with
  | changeable a => exact Attribute.same_read? h
  | angle =>
      cases p <;> cases q
      any_goals cases h
      all_goals
        simp only [same, Payload.sameAs, Bool.and_eq_true] at h
        simp [same, read?, Payload.angle?, h]

theorem Has.same_self (h : t.Has payload x) (hpayload : same payload payload = true) :
    same x x = true := by
  have hsame := same_read? (t := t) hpayload
  rw [read?_eq_some_iff.mpr h] at hsame
  exact hsame

end Trait

end Schematic
