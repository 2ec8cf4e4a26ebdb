import Schematic.Proofs.Payload.Equality
import Schematic.Store.State

namespace Schematic

namespace Binary64

/-- Zero, of either sign, or a normal number. -/
def Regular (x : Binary64) : Prop := x.isZero = true ∨ x.isNormal = true

theorem Regular.isNaN_eq_false {x : Binary64} (h : x.Regular) : x.isNaN = false := by
  unfold isNaN infinityCode
  simp only [decide_eq_false_iff_not, Nat.shiftLeft_eq]
  rcases h with hzero | hnormal
  · have hcode : x.code = 0 := by simpa [isZero] using hzero
    omega
  · simp only [isNormal, exponentField, Bool.and_eq_true, decide_eq_true_eq,
      Nat.shiftRight_eq_div_pow] at hnormal
    omega

/-- Nearer to zero than any normal number, but not zero. -/
def isSubnormal (x : Binary64) : Bool := x.exponentField == 0 && !x.isZero

theorem regular_iff {x : Binary64} :
    x.Regular ↔ x.isNaN = false ∧ x.isInfinite = false ∧ x.isSubnormal = false := by
  have hfield : x.exponentField = x.code / 2 ^ 52 := Nat.shiftRight_eq_div_pow _ _
  have hinfinity : infinityCode = 2047 * 2 ^ 52 := Nat.shiftLeft_eq _ _
  simp only [Regular, isZero, isNormal, isNaN, isInfinite, isSubnormal, hfield, hinfinity,
    beq_iff_eq, Bool.and_eq_true, decide_eq_true_eq, decide_eq_false_iff_not, beq_eq_false_iff_ne,
    Bool.and_eq_false_iff, Bool.not_eq_false']
  omega

end Binary64

namespace Constraint

theorem check_eq_ok_iff {constraints : List Constraint} :
    check constraints = .ok () ↔ ∀ c ∈ constraints, c.error? = none := by
  rw [← List.findSome?_eq_none_iff, check]
  split <;> simp_all

theorem regular_of_finite {field : String} {value : Binary64}
    (h : (finite field value).error? = none) : value.Regular := by
  simp only [error?] at h
  split at h
  · rename_i hvalue
    exact Bool.or_eq_true_iff.mp hvalue
  · cases h

theorem regular_of_finitePositive {field : String} {value : Binary64}
    (h : (finitePositive field value).error? = none) : value.Regular := by
  simp only [error?] at h
  split at h
  · rename_i hvalue
    exact Bool.or_eq_true_iff.mp hvalue
  · cases h

theorem error?_finitePositive_ite {field : String} {value : Binary64} (uses : Bool)
    (h : (finitePositive field value).error? = none) :
    (finitePositive field (if uses = true then value else .zero)).error? = none := by
  cases uses with
  | true => exact h
  | false => rfl

end Constraint

/-! ### Numbers -/

def Point.numbers (point : Point) : List Binary64 := [point.x, point.y]

def Stroke.numbers (line : Stroke) : List Binary64 :=
  [line.width, line.dashLength, line.dashSpace]

def Fill.numbers (fill : Fill) : List Binary64 := [fill.width, fill.pitch0, fill.pitch1]

def Payload.numbers : Payload → List Binary64
  | .arc d => d.pos.numbers ++ d.radius :: d.line.numbers
  | .box d => d.pos.numbers ++ d.size.numbers ++ d.line.numbers ++ d.fill.numbers
  | .circle d => d.pos.numbers ++ d.radius :: d.line.numbers ++ d.fill.numbers
  | .component d => d.pos.numbers
  | .line d => d.pos.numbers ++ d.size.numbers ++ d.line.numbers
  | .net d => d.pos.numbers ++ d.size.numbers
  | .path d => d.line.numbers ++ d.fill.numbers
  | .picture d => d.pos.numbers ++ d.size.numbers
  | .text d => d.pos.numbers

namespace Payload

/-- Only a NaN among its numbers keeps a payload from being the same as itself. -/
theorem same_self_iff {payload : Payload} :
    same payload payload = true ↔ ∀ x ∈ payload.numbers, x.isNaN = false := by
  cases payload <;>
    simp [same, sameAs, numbers, Point.numbers, Stroke.numbers, Fill.numbers,
      Binary64.same_self_iff, and_assoc]

theorem validate_eq_ok_iff {payload : Payload} :
    payload.validate = .ok () ↔ ∀ c ∈ payload.constraints, c.error? = none :=
  Constraint.check_eq_ok_iff

/-- Every number of a payload is constrained, so no valid payload has a NaN in it. -/
theorem regular_of_validate {payload : Payload} (h : payload.validate = .ok ()) :
    ∀ x ∈ payload.numbers, x.Regular := by
  rw [validate_eq_ok_iff] at h
  cases payload <;>
    simp only [constraints, posConstraints, sizeConstraints, Stroke.constraints, Fill.constraints,
      List.forall_mem_append, List.forall_mem_cons] at h <;>
    simp only [numbers, Point.numbers, Stroke.numbers, Fill.numbers, List.forall_mem_append,
      List.forall_mem_cons] <;>
    grind [Constraint.regular_of_finite, Constraint.regular_of_finitePositive]

theorem same_self_of_validate {payload : Payload} (h : payload.validate = .ok ()) :
    same payload payload = true :=
  same_self_iff.mpr fun x hx => (regular_of_validate h x hx).isNaN_eq_false

end Payload

/-! ### Normal forms are as acceptable as what they come from -/

theorem Stroke.constraints_normalize {line : Stroke} (h : ∀ c ∈ line.constraints, c.error? = none) :
    ∀ c ∈ line.normalize.constraints, c.error? = none := by
  simp only [constraints, List.forall_mem_cons] at h ⊢
  obtain ⟨hwidth, hcap, hdash, hlength, hspace, hnil⟩ := h
  exact ⟨hwidth, hcap, hdash, Constraint.error?_finitePositive_ite line.usesLength hlength,
    Constraint.error?_finitePositive_ite line.usesSpace hspace, hnil⟩

theorem Fill.constraints_normalize {fill : Fill} (h : ∀ c ∈ fill.constraints, c.error? = none) :
    ∀ c ∈ fill.normalize.constraints, c.error? = none := by
  simp only [constraints, List.forall_mem_cons] at h ⊢
  obtain ⟨hstyle, hwidth, hpitch0, hpitch1, hnil⟩ := h
  exact ⟨hstyle, Constraint.error?_finitePositive_ite fill.isHatched hwidth,
    Constraint.error?_finitePositive_ite fill.isHatched hpitch0,
    Constraint.error?_finitePositive_ite fill.isMesh hpitch1, hnil⟩

namespace Payload

theorem validate_normalize {payload : Payload} (h : payload.validate = .ok ()) :
    payload.normalize.validate = .ok () := by
  rw [validate_eq_ok_iff] at h ⊢
  cases payload with
  | arc d =>
      simp only [normalize, constraints, List.forall_mem_append, List.forall_mem_cons] at h ⊢
      obtain ⟨hpos, hradius, hcolor, hline⟩ := h
      exact ⟨hpos, hradius, hcolor, Stroke.constraints_normalize hline⟩
  | box d =>
      simp only [normalize, constraints, List.forall_mem_append, List.forall_mem_cons] at h ⊢
      obtain ⟨⟨⟨hpos, hsize⟩, hcolor, hline⟩, hfill⟩ := h
      exact ⟨⟨⟨hpos, hsize⟩, hcolor, Stroke.constraints_normalize hline⟩,
        Fill.constraints_normalize hfill⟩
  | circle d =>
      simp only [normalize, constraints, List.forall_mem_append, List.forall_mem_cons] at h ⊢
      obtain ⟨⟨hpos, hradius, hcolor, hline⟩, hfill⟩ := h
      exact ⟨⟨hpos, hradius, hcolor, Stroke.constraints_normalize hline⟩,
        Fill.constraints_normalize hfill⟩
  | line d =>
      simp only [normalize, constraints, List.forall_mem_append, List.forall_mem_cons] at h ⊢
      obtain ⟨⟨hpos, hsize⟩, hcolor, hline⟩ := h
      exact ⟨⟨hpos, hsize⟩, hcolor, Stroke.constraints_normalize hline⟩
  | path d =>
      simp only [normalize, constraints, List.forall_mem_append, List.forall_mem_cons] at h ⊢
      obtain ⟨⟨hcolor, hline⟩, hfill⟩ := h
      exact ⟨⟨hcolor, Stroke.constraints_normalize hline⟩, Fill.constraints_normalize hfill⟩
  | component d => exact h
  | net d => exact h
  | picture d => exact h
  | text d => exact h

theorem accept_of_accept {payload kept : Payload} (h : payload.accept = .ok kept) :
    kept.accept = .ok kept := by
  obtain ⟨hvalid, rfl⟩ := accept_eq_ok_iff.mp h
  exact accept_eq_ok_iff.mpr ⟨validate_normalize hvalid, (normalize_normalize payload).symm⟩

theorem same_self_of_accept {payload kept : Payload} (h : payload.accept = .ok kept) :
    same kept kept = true :=
  same_self_of_validate (accept_eq_ok_iff.mp (accept_of_accept h)).1

/-- A payload as it is kept: valid, in its normal form, and the same as itself, as its numbers are
all regular. -/
structure Canonical (payload : Payload) : Prop where
  validate_eq : payload.validate = .ok ()
  normalize_eq : payload.normalize = payload
  same_self : same payload payload = true
  numbers_regular : ∀ x ∈ payload.numbers,
    x.isNaN = false ∧ x.isInfinite = false ∧ x.isSubnormal = false

theorem canonical_of_accept_self {payload : Payload} (h : payload.accept = .ok payload) :
    payload.Canonical where
  validate_eq := (accept_eq_ok_iff.mp h).1
  normalize_eq := (accept_eq_ok_iff.mp h).2.symm
  same_self := same_self_of_accept h
  numbers_regular x hx :=
    Binary64.regular_iff.mp (regular_of_validate (accept_eq_ok_iff.mp h).1 x hx)

end Payload

end Schematic
