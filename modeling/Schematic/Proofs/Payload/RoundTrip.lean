import Mathlib.Tactic.Common
import Schematic.Payload.Json
import Schematic.Proofs.Json.RoundTrip
import Schematic.Proofs.Payload.Kept

namespace Schematic

open Json (int32? binary64? bool? text? record? ofInt32)

theorem Json.int32?_ofInt32 (n : Int32) : int32? (ofInt32 n) = some n := by
  rw [ofInt32, int32?, if_pos ⟨n.minValue_le_toInt, n.toInt_le⟩, Int32.ofInt_toInt]

theorem Point.ofJson?_toJson (p : Point) : ofJson? p.toJson = some p := rfl

theorem Stroke.ofJson?_toJson (line : Stroke) : ofJson? line.toJson = some line := by
  simp [ofJson?, toJson, record?, Json.Record.get?, Json.member?, List.lookup_cons, binary64?,
    Json.int32?_ofInt32]

theorem Fill.ofJson?_toJson (fill : Fill) : ofJson? fill.toJson = some fill := by
  simp [ofJson?, toJson, record?, Json.Record.get?, Json.member?, List.lookup_cons, binary64?,
    Json.int32?_ofInt32]

namespace Payload

/-- The payload with the empty resource, if it has one. -/
def withoutResource : Payload → Payload
  | component d => component { d with symbol := .empty }
  | picture d => picture { d with pixmap := .empty }
  | payload => payload

theorem ofJson_toJson (payload : Payload) :
    ofJson payload.kind payload.toJson = .ok payload.withoutResource := by
  have hread : ofRecord? payload.kind
      (Json.member? (("type", .text payload.kind.name) :: payload.members)) =
        some payload.withoutResource := by
    cases payload <;>
      simp [ofRecord?, kind, members, withoutResource, Json.Record.get?, Json.member?,
        List.lookup_cons, binary64?, bool?, text?, Json.int32?_ofInt32, Point.ofJson?_toJson,
        Stroke.ofJson?_toJson, Fill.ofJson?_toJson]
  rw [toJson, ofJson, hread]

@[simp] theorem kind_withoutResource (payload : Payload) :
    payload.withoutResource.kind = payload.kind := by
  cases payload <;> rfl

@[simp] theorem toJson_withoutResource (payload : Payload) :
    payload.withoutResource.toJson = payload.toJson := by
  cases payload <;> rfl

@[simp] theorem constraints_withoutResource (payload : Payload) :
    payload.withoutResource.constraints = payload.constraints := by
  cases payload <;> rfl

@[simp] theorem normalize_withoutResource (payload : Payload) :
    payload.withoutResource.normalize = payload.normalize.withoutResource := by
  cases payload <;> rfl

@[simp] theorem accept_withoutResource (payload : Payload) :
    payload.withoutResource.accept = payload.accept.map withoutResource := by
  rw [accept, accept, validate, validate, constraints_withoutResource]
  cases Constraint.check payload.constraints with
  | error e => rfl
  | ok _ => exact congrArg Except.ok (normalize_withoutResource payload)

theorem accept_withoutResource_of_accept {payload kept : Payload} (h : payload.accept = .ok kept) :
    kept.withoutResource.accept = .ok kept.withoutResource := by
  rw [accept_withoutResource, accept_of_accept h]
  rfl

end Payload

/-! ### Texts of payloads -/

open Json (Legible ReadsBack)

variable {depth : Nat}

theorem Json.legible_ofInt32 (n : Int32) : Legible depth (ofInt32 n) := by
  have hlower := n.le_toInt
  have hupper := n.toInt_lt
  exact .integer (Int.le_trans (by decide) hlower) (Int.le_trans (Int.le_of_lt hupper) (by decide))

theorem Point.legible_toJson {p : Point} (h : ∀ x ∈ p.numbers, ReadsBack x) :
    Legible (depth + 1) p.toJson := by
  simp only [numbers, List.forall_mem_cons] at h
  obtain ⟨hx, hy, -⟩ := h
  refine .object ?_
  simp only [List.forall_mem_cons]
  exact ⟨.float hx, .float hy, List.forall_mem_nil _⟩

theorem Stroke.legible_toJson {line : Stroke} (h : ∀ x ∈ line.numbers, ReadsBack x) :
    Legible (depth + 1) line.toJson := by
  simp only [numbers, List.forall_mem_cons] at h
  obtain ⟨hwidth, hlength, hspace, -⟩ := h
  refine .object ?_
  simp only [List.forall_mem_cons]
  exact ⟨.float hwidth, Json.legible_ofInt32 _, Json.legible_ofInt32 _, .float hlength,
    .float hspace, List.forall_mem_nil _⟩

theorem Fill.legible_toJson {fill : Fill} (h : ∀ x ∈ fill.numbers, ReadsBack x) :
    Legible (depth + 1) fill.toJson := by
  simp only [numbers, List.forall_mem_cons] at h
  obtain ⟨hwidth, hpitch0, hpitch1, -⟩ := h
  refine .object ?_
  simp only [List.forall_mem_cons]
  exact ⟨Json.legible_ofInt32 _, .float hwidth, Json.legible_ofInt32 _, .float hpitch0,
    Json.legible_ofInt32 _, .float hpitch1, List.forall_mem_nil _⟩

namespace Payload

variable {payload : Payload}

theorem legible_members (h : ∀ x ∈ payload.numbers, ReadsBack x) :
    ∀ m ∈ payload.members, Legible (depth + 1) m.2 := by
  cases payload <;>
    simp only [numbers, List.forall_mem_append, List.forall_mem_cons] at h <;>
    simp only [members, List.forall_mem_cons, List.not_mem_nil, false_imp_iff, implies_true,
      and_true] <;>
    grind [Json.legible_ofInt32, Legible.bool, Legible.text, Legible.float, Point.legible_toJson,
      Stroke.legible_toJson, Fill.legible_toJson]

theorem legible_toJson (h : ∀ x ∈ payload.numbers, ReadsBack x) :
    Legible (depth + 2) payload.toJson :=
  .object (List.forall_mem_cons.mpr ⟨.text _, legible_members h⟩)

theorem ofText_pretty (h : ∀ x ∈ payload.numbers, ReadsBack x) (after : String)
    (hafter : ∀ c ∈ after.toList, Json.Token.isBlank c = true) :
    ofText payload.kind (payload.toJson.pretty ++ after) = .ok payload.withoutResource := by
  have hlegible : Legible Json.maxDepth payload.toJson := legible_toJson h
  rw [ofText, hlegible.parse?_pretty after hafter]
  exact ofJson_toJson payload

end Payload

end Schematic
