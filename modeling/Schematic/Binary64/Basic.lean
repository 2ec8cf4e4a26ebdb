/-!
Binary64 numbers as bit patterns: a sign bit above a *magnitude code* of 63 bits, the upper 11 of
which are the exponent field. Codes are ordered like the magnitudes that they stand for. A finite
magnitude is a whole number of *units*, the unit being `2 ^ (-1074)`.
-/

namespace Schematic

/-- Equality of this type is equality of bit patterns; equality of numbers is `Binary64.same`. -/
structure Binary64 where
  bits : UInt64
  deriving DecidableEq

namespace Binary64

def codeCount : Nat := 1 <<< 63

def hiddenBit : Nat := 1 <<< 52

/-- The codes above it belong to the NaNs. -/
def infinityCode : Nat := 2047 <<< 52

def ofCode (negative : Bool) (code : Nat) : Binary64 :=
  ⟨UInt64.ofNat (code % codeCount + if negative then codeCount else 0)⟩

def zero : Binary64 := ⟨0⟩

instance : Inhabited Binary64 := ⟨zero⟩

def code (x : Binary64) : Nat := x.bits.toNat % codeCount

def signBit (x : Binary64) : Bool := decide (codeCount ≤ x.bits.toNat)

def exponentField (x : Binary64) : Nat := x.code >>> 52

def fraction (x : Binary64) : Nat := x.code % hiddenBit

def isZero (x : Binary64) : Bool := x.code == 0

def isNormal (x : Binary64) : Bool :=
  decide (0 < x.exponentField) && decide (x.exponentField < 2047)

def isFinite (x : Binary64) : Bool := decide (x.exponentField < 2047)

def isInfinite (x : Binary64) : Bool := x.code == infinityCode

def isNaN (x : Binary64) : Bool := decide (infinityCode < x.code)

def isNegative (x : Binary64) : Bool := x.signBit && !x.isZero && !x.isNaN

/-- A NaN differs from every number and from itself, and the two zeros are one number. -/
def same (x y : Binary64) : Bool :=
  !x.isNaN && !y.isNaN && (x == y || (x.isZero && y.isZero))

def negate (x : Binary64) : Binary64 := ofCode (!x.signBit) x.code

def significand (x : Binary64) : Nat :=
  if x.exponentField = 0 then x.fraction else hiddenBit + x.fraction

/-- Neighbouring magnitudes around `x` lie `2 ^ x.scale` units apart. -/
def scale (x : Binary64) : Nat := x.exponentField - 1

def units (x : Binary64) : Nat := x.significand <<< x.scale

theorem same_self_iff (x : Binary64) : x.same x = true ↔ x.isNaN = false := by
  simp [same]

theorem same_comm (x y : Binary64) : x.same y = y.same x := by
  unfold same
  rw [Bool.beq_comm (a := x)]
  cases x.isNaN <;> cases y.isNaN <;> cases x.isZero <;> cases y.isZero <;> simp

end Binary64

end Schematic
