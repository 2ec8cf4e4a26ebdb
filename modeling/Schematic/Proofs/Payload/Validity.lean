import Schematic.Proofs.Payload.Kept

namespace Schematic

namespace Binary64

def exponentBits (x : Binary64) : BitVec 11 := x.bits.toBitVec.extractLsb' 52 11

def fractionBits (x : Binary64) : BitVec 52 := x.bits.toBitVec.extractLsb' 0 52

def signBits (x : Binary64) : BitVec 1 := x.bits.toBitVec.extractLsb' 63 1

def ZeroBits (x : Binary64) : Prop := x.exponentBits = 0 ∧ x.fractionBits = 0

def NormalBits (x : Binary64) : Prop :=
  x.exponentBits ≠ 0 ∧ x.exponentBits ≠ BitVec.allOnes 11

variable {x : Binary64}

theorem toNat_exponentBits : x.exponentBits.toNat = x.exponentField := by
  simp only [exponentBits, exponentField, code, codeCount, BitVec.extractLsb'_toNat,
    Nat.shiftRight_eq_div_pow, Nat.shiftLeft_eq, UInt64.toNat_toBitVec]
  omega

theorem toNat_fractionBits : x.fractionBits.toNat = x.fraction := by
  simp only [fractionBits, fraction, code, codeCount, hiddenBit, BitVec.extractLsb'_toNat,
    Nat.shiftRight_eq_div_pow, Nat.shiftLeft_eq, UInt64.toNat_toBitVec]
  omega

theorem signBits_eq : x.signBits = BitVec.ofBool x.signBit := by
  have hlt := x.bits.toNat_lt
  rw [← BitVec.toNat_inj]
  simp only [signBits, signBit, codeCount, BitVec.extractLsb'_toNat, BitVec.toNat_ofBool,
    Nat.shiftRight_eq_div_pow, Nat.shiftLeft_eq, UInt64.toNat_toBitVec]
  by_cases hsign : 1 * 2 ^ 63 ≤ x.bits.toNat
  · rw [decide_eq_true hsign, Bool.toNat_true]
    omega
  · rw [decide_eq_false hsign, Bool.toNat_false]
    omega

theorem isZero_iff : x.isZero = true ↔ x.ZeroBits := by
  rw [ZeroBits, ← BitVec.toNat_inj, ← BitVec.toNat_inj, toNat_exponentBits, toNat_fractionBits,
    isZero, beq_iff_eq]
  simp only [exponentField, fraction, hiddenBit, Nat.shiftRight_eq_div_pow, Nat.shiftLeft_eq,
    BitVec.ofNat_eq_ofNat, BitVec.toNat_ofNat]
  omega

theorem isNormal_iff : x.isNormal = true ↔ x.NormalBits := by
  have hlt := x.exponentBits.isLt
  rw [toNat_exponentBits] at hlt
  rw [NormalBits, Ne, Ne, ← BitVec.toNat_inj, ← BitVec.toNat_inj, toNat_exponentBits, isNormal]
  simp only [Bool.and_eq_true, decide_eq_true_eq, BitVec.ofNat_eq_ofNat, BitVec.toNat_ofNat,
    BitVec.toNat_allOnes]
  omega

theorem regular_iff_bits : x.Regular ↔ x.ZeroBits ∨ x.NormalBits := by
  rw [Regular, isZero_iff, isNormal_iff]

theorem not_zeroBits_of_normalBits (h : x.NormalBits) : ¬ x.ZeroBits :=
  fun hzero => h.1 hzero.1

theorem Regular.isNegative_iff (h : x.Regular) :
    x.isNegative = true ↔ x.NormalBits ∧ x.signBits = 1 := by
  have hsign : x.signBits = 1 ↔ x.signBit = true := by
    rw [signBits_eq]
    cases x.signBit <;> decide
  rw [isNegative, h.isNaN_eq_false, hsign]
  rcases regular_iff_bits.mp h with hzero | hnormal
  · have hnot : ¬ x.NormalBits := fun hnormal => not_zeroBits_of_normalBits hnormal hzero
    simp [isZero_iff.mpr hzero, hnot]
  · have hnot : x.isZero = false := by
      rw [← Bool.not_eq_true, isZero_iff]
      exact not_zeroBits_of_normalBits hnormal
    simp [hnot, hnormal]

theorem nonnegative_iff_bits :
    x.Regular ∧ x.isNegative = false ↔ x.ZeroBits ∨ x.NormalBits ∧ x.signBits = 0 := by
  constructor
  · rintro ⟨hregular, hneg⟩
    refine (regular_iff_bits.mp hregular).imp_right fun hnormal => ⟨hnormal, ?_⟩
    rw [← Bool.not_eq_true, hregular.isNegative_iff] at hneg
    exact (BitVec.eq_zero_or_eq_one _).resolve_right fun hsign => hneg ⟨hnormal, hsign⟩
  · intro h
    have hregular := regular_iff_bits.mpr (h.imp_right And.left)
    refine ⟨hregular, ?_⟩
    rw [← Bool.not_eq_true, hregular.isNegative_iff]
    rintro ⟨hnormal, hsign⟩
    rcases h with hzero | ⟨-, hsign'⟩
    · exact not_zeroBits_of_normalBits hnormal hzero
    · rw [hsign] at hsign'
      cases hsign'

end Binary64

/-! ### Fields -/

inductive FieldValue
  | number (value : Binary64)
  | integer (value : Int32)
  | flag (value : Bool)
  | text (value : String)
  | resource (value : Resource)
  deriving DecidableEq

structure Field where
  path : String
  value : FieldValue
  deriving DecidableEq

def Stroke.fields (line : Stroke) : List Field :=
  [⟨"line.width", .number line.width⟩, ⟨"line.cap_style", .integer line.cap⟩,
    ⟨"line.dash_style", .integer line.dash⟩, ⟨"line.dash_length", .number line.dashLength⟩,
    ⟨"line.dash_space", .number line.dashSpace⟩]

def Fill.fields (fill : Fill) : List Field :=
  [⟨"fill.type", .integer fill.style⟩, ⟨"fill.width", .number fill.width⟩,
    ⟨"fill.angle0", .integer fill.angle0⟩, ⟨"fill.pitch0", .number fill.pitch0⟩,
    ⟨"fill.angle1", .integer fill.angle1⟩, ⟨"fill.pitch1", .number fill.pitch1⟩]

namespace Payload

def posFields (pos : Point) : List Field :=
  [⟨"pos.x", .number pos.x⟩, ⟨"pos.y", .number pos.y⟩]

def sizeFields (size : Point) : List Field :=
  [⟨"size.x", .number size.x⟩, ⟨"size.y", .number size.y⟩]

def fields : Payload → List Field
  | arc d =>
      posFields d.pos ++ [⟨"radius", .number d.radius⟩, ⟨"startangle", .integer d.startAngle⟩,
        ⟨"sweepangle", .integer d.sweepAngle⟩, ⟨"color", .integer d.color⟩] ++ d.line.fields
  | box d =>
      posFields d.pos ++ sizeFields d.size ++ [⟨"color", .integer d.color⟩] ++ d.line.fields ++
        d.fill.fields
  | circle d =>
      posFields d.pos ++ [⟨"radius", .number d.radius⟩, ⟨"color", .integer d.color⟩] ++
        d.line.fields ++ d.fill.fields
  | component d =>
      posFields d.pos ++ [⟨"selectable", .flag d.selectable⟩, ⟨"angle", .integer d.angle⟩,
        ⟨"mirror", .flag d.mirror⟩, ⟨"symbol", .resource d.symbol⟩]
  | line d =>
      posFields d.pos ++ sizeFields d.size ++ [⟨"color", .integer d.color⟩] ++ d.line.fields
  | net d =>
      posFields d.pos ++ sizeFields d.size ++ [⟨"color", .integer d.color⟩,
        ⟨"is_bus", .flag d.isBus⟩, ⟨"is_pin", .flag d.isPin⟩, ⟨"is_inverted", .flag d.isInverted⟩]
  | path d =>
      [⟨"pathdata", .text d.commands⟩, ⟨"color", .integer d.color⟩] ++ d.line.fields ++
        d.fill.fields
  | picture d =>
      posFields d.pos ++ sizeFields d.size ++ [⟨"angle", .integer d.angle⟩,
        ⟨"mirror", .flag d.mirror⟩, ⟨"pixmap", .resource d.pixmap⟩]
  | text d =>
      posFields d.pos ++ [⟨"color", .integer d.color⟩, ⟨"text_size", .integer d.size⟩,
        ⟨"visibility", .flag d.visible⟩, ⟨"show_name_value", .integer d.shown⟩,
        ⟨"angle", .integer d.angle⟩, ⟨"alignment", .integer d.alignment⟩, ⟨"text", .text d.text⟩]

end Payload

theorem Point.eq_iff {p q : Point} : p = q ↔ p.x = q.x ∧ p.y = q.y := by
  cases p
  cases q
  simp

theorem Stroke.eq_iff {line line' : Stroke} :
    line = line' ↔ line.width = line'.width ∧ line.cap = line'.cap ∧ line.dash = line'.dash ∧
      line.dashLength = line'.dashLength ∧ line.dashSpace = line'.dashSpace := by
  cases line
  cases line'
  simp

theorem Fill.eq_iff {fill fill' : Fill} :
    fill = fill' ↔ fill.style = fill'.style ∧ fill.width = fill'.width ∧
      fill.angle0 = fill'.angle0 ∧ fill.pitch0 = fill'.pitch0 ∧ fill.angle1 = fill'.angle1 ∧
        fill.pitch1 = fill'.pitch1 := by
  cases fill
  cases fill'
  simp

/-! ### Rules -/

inductive Rule
  | free
  | coordinate
  | measure
  | code (count : Int32)
  | natural
  | rightAngle
  | pinOnly
  deriving DecidableEq

namespace Rule

/-- The rule of a field depends on nothing but its path. Rules speak of numbers by their bit
patterns. -/
def ofPath : String → Rule
  | "pos.x" | "pos.y" | "size.x" | "size.y" => coordinate
  | "radius" | "line.width" | "line.dash_length" | "line.dash_space" => measure
  | "fill.width" | "fill.pitch0" | "fill.pitch1" => measure
  | "color" => code 21
  | "line.cap_style" | "show_name_value" => code 3
  | "line.dash_style" | "fill.type" => code 5
  | "alignment" => code 9
  | "text_size" => natural
  | "angle" => rightAngle
  | "is_inverted" => pinOnly
  | _ => free

variable {isPin : Bool} {path : String} {rule : Rule} {value : FieldValue} {e : ValidationError}

/-- Whether a rule allows a value in a field of a pin, or else of something that is not a pin. A
rule about values of one type allows none of another. -/
def Allows (isPin : Bool) : Rule → FieldValue → Prop
  | free, _ => True
  | coordinate, .number x => x.ZeroBits ∨ x.NormalBits
  | measure, .number x => x.ZeroBits ∨ x.NormalBits ∧ x.signBits = 0
  | code count, .integer n => 0 ≤ n.toInt ∧ n.toInt < count.toInt
  | natural, .integer n => 0 ≤ n.toInt
  | rightAngle, .integer n => n.toInt = 0 ∨ n.toInt = 90 ∨ n.toInt = 180 ∨ n.toInt = 270
  | pinOnly, .flag b => b = true → isPin = true
  | _, _ => False

/-- How a value that a rule does not allow is reported. A number that is not regular is never
reported as negative. -/
inductive Breach (isPin : Bool) (path : String) : Rule → FieldValue → ValidationError → Prop
  | coordinate {x : Binary64} (hzero : ¬ x.ZeroBits) (hnormal : ¬ x.NormalBits) :
      Breach isPin path .coordinate (.number x) (.notFinite path x)
  | measure {x : Binary64} (hzero : ¬ x.ZeroBits) (hnormal : ¬ x.NormalBits) :
      Breach isPin path .measure (.number x) (.notFinite path x)
  | negative {x : Binary64} (hnormal : x.NormalBits) (hsign : x.signBits = 1) :
      Breach isPin path .measure (.number x) (.negative path x)
  | code {n count : Int32} (hrange : n.toInt < 0 ∨ count.toInt ≤ n.toInt) :
      Breach isPin path (.code count) (.integer n) (.outOfRange path n count)
  | natural {n : Int32} (hneg : n.toInt < 0) :
      Breach isPin path .natural (.integer n) (.outOfRange path n Int32.maxValue)
  | rightAngle {n : Int32}
      (hangle : n.toInt ≠ 0 ∧ n.toInt ≠ 90 ∧ n.toInt ≠ 180 ∧ n.toInt ≠ 270) :
      Breach isPin path .rightAngle (.integer n) (.invalidAngle path n)
  | pinOnly (hpin : isPin = false) : Breach isPin path .pinOnly (.flag true) .invertedNotPin

def constraint? (isPin : Bool) (path : String) : Rule → FieldValue → Option Constraint
  | coordinate, .number x => some (.finite path x)
  | measure, .number x => some (.finitePositive path x)
  | code count, .integer n => some (.inRange path n count)
  | natural, .integer n => some (.natural path n)
  | rightAngle, .integer n => some (.angle path n)
  | pinOnly, .flag b => some (.invertedPin b isPin)
  | _, _ => none

def error? (isPin : Bool) (path : String) (rule : Rule) (value : FieldValue) :
    Option ValidationError :=
  (rule.constraint? isPin path value).bind Constraint.error?

theorem error?_eq_none_of_allows (h : rule.Allows isPin value) :
    rule.error? isPin path value = none := by
  cases rule <;> cases value <;> simp only [Allows] at h <;>
    simp only [error?, constraint?, Option.bind_some, Option.bind_none, Constraint.error?]
  case coordinate.number x =>
    exact if_pos (Bool.or_eq_true_iff.mpr (Binary64.regular_iff_bits.mpr h))
  case measure.number x =>
    obtain ⟨hregular, hneg⟩ := Binary64.nonnegative_iff_bits.mpr h
    rw [if_pos (Bool.or_eq_true_iff.mpr hregular), hneg]
    rfl
  case code.integer count n =>
    rw [if_pos]
    rwa [Int32.le_iff_toInt_le, Int32.lt_iff_toInt_lt]
  case natural.integer n =>
    rw [if_neg]
    rwa [Int32.lt_iff_toInt_lt, Int.not_lt]
  case rightAngle.integer n =>
    rw [if_pos]
    simpa [← Int32.toInt_inj] using h
  case pinOnly.flag b =>
    cases b
    · rfl
    · rw [h rfl]
      rfl

theorem error?_eq_some_of_breach (h : Breach isPin path rule value e) :
    rule.error? isPin path value = some e := by
  cases h with
  | coordinate hzero hnormal =>
      simp [error?, constraint?, Constraint.error?, Binary64.isZero_iff, Binary64.isNormal_iff,
        hzero, hnormal]
  | measure hzero hnormal =>
      simp [error?, constraint?, Constraint.error?, Binary64.isZero_iff, Binary64.isNormal_iff,
        hzero, hnormal]
  | negative hnormal hsign =>
      have hregular := Binary64.regular_iff_bits.mpr (.inr hnormal)
      have hneg := hregular.isNegative_iff.mpr ⟨hnormal, hsign⟩
      simp [error?, constraint?, Constraint.error?, Binary64.isNormal_iff, hnormal, hneg]
  | @code n count hrange =>
      have hout : ¬ (0 ≤ n ∧ n < count) := by
        rw [Int32.le_iff_toInt_le, Int32.lt_iff_toInt_lt, Int32.toInt_zero]
        omega
      exact if_neg hout
  | natural hneg =>
      simpa [error?, constraint?, Constraint.error?, Int32.lt_iff_toInt_lt] using hneg
  | rightAngle hangle =>
      simpa [error?, constraint?, Constraint.error?, ← Int32.toInt_inj] using hangle
  | pinOnly hpin =>
      rw [hpin]
      rfl

theorem allows_or_breach (h : rule.constraint? isPin path value = none → rule = free) :
    rule.Allows isPin value ∨ ∃ e, Breach isPin path rule value e := by
  cases rule <;> cases value <;>
    simp only [constraint?, reduceCtorEq, imp_false, not_true_eq_false] at h
  case coordinate.number x =>
    by_cases hregular : x.ZeroBits ∨ x.NormalBits
    · exact .inl hregular
    · obtain ⟨hzero, hnormal⟩ := not_or.mp hregular
      exact .inr ⟨_, .coordinate hzero hnormal⟩
  case measure.number x =>
    by_cases hzero : x.ZeroBits
    · exact .inl (.inl hzero)
    by_cases hnormal : x.NormalBits
    · rcases BitVec.eq_zero_or_eq_one x.signBits with hsign | hsign
      · exact .inl (.inr ⟨hnormal, hsign⟩)
      · exact .inr ⟨_, .negative hnormal hsign⟩
    · exact .inr ⟨_, .measure hzero hnormal⟩
  case code.integer count n =>
    by_cases hrange : 0 ≤ n.toInt ∧ n.toInt < count.toInt
    · exact .inl hrange
    · exact .inr ⟨_, .code (by omega)⟩
  case natural.integer n =>
    by_cases hneg : n.toInt < 0
    · exact .inr ⟨_, .natural hneg⟩
    · exact .inl (Int.not_lt.mp hneg)
  case rightAngle.integer n =>
    by_cases hangle : n.toInt = 0 ∨ n.toInt = 90 ∨ n.toInt = 180 ∨ n.toInt = 270
    · exact .inl hangle
    · exact .inr ⟨_, .rightAngle (by omega)⟩
  case pinOnly.flag inverted =>
    cases inverted with
    | false => exact .inl (fun h => nomatch h)
    | true =>
      cases isPin with
      | false => exact .inr ⟨_, .pinOnly rfl⟩
      | true => exact .inl fun _ => rfl
  -- Only free rules are left: `h` rules out values of the wrong type.
  all_goals exact .inl trivial

theorem error?_eq_none_iff (h : rule.constraint? isPin path value = none → rule = free) :
    rule.error? isPin path value = none ↔ rule.Allows isPin value := by
  refine ⟨fun hnone => ?_, error?_eq_none_of_allows⟩
  rcases allows_or_breach h with hallows | ⟨e, hbreach⟩
  · exact hallows
  · rw [error?_eq_some_of_breach hbreach] at hnone
    cases hnone

theorem error?_eq_some_iff (h : rule.constraint? isPin path value = none → rule = free) :
    rule.error? isPin path value = some e ↔ Breach isPin path rule value e := by
  refine ⟨fun hsome => ?_, error?_eq_some_of_breach⟩
  rcases allows_or_breach h with hallows | ⟨e', hbreach⟩
  · rw [error?_eq_none_of_allows hallows] at hsome
    cases hsome
  · obtain rfl : e' = e := Option.some.inj ((error?_eq_some_of_breach hbreach).symm.trans hsome)
    exact hbreach

end Rule

namespace Payload

def isPin : Payload → Bool
  | net d => d.isPin
  | _ => false

def Meets (payload : Payload) (field : Field) : Prop :=
  (Rule.ofPath field.path).Allows payload.isPin field.value

/-- The payload has a value in the field that is not allowed, and this is how it is reported. -/
def Violates (payload : Payload) (field : Field) (e : ValidationError) : Prop :=
  Rule.Breach payload.isPin field.path (Rule.ofPath field.path) field.value e

def constraint? (payload : Payload) (field : Field) : Option Constraint :=
  (Rule.ofPath field.path).constraint? payload.isPin field.path field.value

/-- Constraints are checked in the order of the fields. -/
theorem constraints_eq (payload : Payload) :
    payload.constraints = payload.fields.filterMap payload.constraint? := by
  cases payload <;> rfl

variable {payload : Payload} {field : Field} {e : ValidationError}

/-- Fields without a constraint have no rule, so that no field is left unchecked for having a value
of the wrong type. -/
theorem free_of_constraint?_eq_none (hfield : field ∈ payload.fields)
    (h : payload.constraint? field = none) : Rule.ofPath field.path = .free := by
  have hall : payload.fields.all (fun field =>
      (payload.constraint? field).isSome || decide (Rule.ofPath field.path = .free)) = true := by
    -- The paths and the types of the values are the same for all payloads of one kind.
    cases payload <;> rfl
  simpa [h] using List.all_eq_true.mp hall field hfield

theorem eq_of_ofPath_eq_pinOnly {path : String} (h : Rule.ofPath path = .pinOnly) :
    path = "is_inverted" := by
  unfold Rule.ofPath at h
  split at h <;> first | rfl | cases h

theorem Violates.field_eq (h : payload.Violates field e) : e.field = field.path := by
  obtain ⟨path, value⟩ := field
  unfold Violates at h
  generalize hrule : Rule.ofPath path = rule at h
  cases h with
  | pinOnly => exact (eq_of_ofPath_eq_pinOnly hrule).symm
  | _ => rfl

def error? (payload : Payload) (field : Field) : Option ValidationError :=
  (payload.constraint? field).bind Constraint.error?

theorem error?_eq_none_iff (hfield : field ∈ payload.fields) :
    payload.error? field = none ↔ payload.Meets field :=
  Rule.error?_eq_none_iff (free_of_constraint?_eq_none hfield)

theorem error?_eq_some_iff (hfield : field ∈ payload.fields) :
    payload.error? field = some e ↔ payload.Violates field e :=
  Rule.error?_eq_some_iff (free_of_constraint?_eq_none hfield)

theorem findSome?_constraints (payload : Payload) :
    payload.constraints.findSome? Constraint.error? = payload.fields.findSome? payload.error? := by
  rw [constraints_eq, ← List.head?_filterMap, List.filterMap_filterMap, List.head?_filterMap]
  rfl

theorem validate_eq_ok_iff_meets :
    payload.validate = .ok () ↔ ∀ field ∈ payload.fields, payload.Meets field := by
  rw [validate_eq_ok_iff, ← List.findSome?_eq_none_iff, findSome?_constraints,
    List.findSome?_eq_none_iff]
  exact forall₂_congr fun field hfield => error?_eq_none_iff hfield

theorem validate_eq_error_iff :
    payload.validate = .error e ↔ payload.fields.findSome? payload.error? = some e := by
  rw [validate, Constraint.check, findSome?_constraints]
  cases payload.fields.findSome? payload.error? <;> simp

/-- A payload is valid if all of its fields have values that are allowed. Otherwise the error is
that of the first field that does not. -/
theorem validate_outcome (payload : Payload) :
    (payload.validate = .ok () ↔ ∀ field ∈ payload.fields, payload.Meets field) ∧
      ∀ e, payload.validate = .error e ↔ ∃ before field after,
        payload.fields = before ++ field :: after ∧ (∀ f ∈ before, payload.Meets f) ∧
          payload.Violates field e ∧ e.field = field.path := by
  refine ⟨validate_eq_ok_iff_meets, fun e => ?_⟩
  rw [validate_eq_error_iff, List.findSome?_eq_some_iff]
  refine exists_congr fun before => exists_congr fun field => exists_congr fun after => ?_
  refine and_congr_right fun hfields => ?_
  have hfield : field ∈ payload.fields := by simp [hfields]
  have hbefore : ∀ f ∈ before, payload.error? f = none ↔ payload.Meets f :=
    fun f hf => error?_eq_none_iff (by simp [hfields, hf])
  rw [error?_eq_some_iff hfield, and_comm, forall₂_congr hbefore]
  exact and_congr_right fun _ => (and_iff_left_of_imp Violates.field_eq).symm

/-- Of two fields at fault the one that comes first is reported. -/
example : validate (net { color := 21, isInverted := true }) =
    .error (.outOfRange "color" 21 21) := rfl

end Payload

end Schematic
