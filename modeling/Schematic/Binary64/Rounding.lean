import Schematic.Binary64.Basic

namespace Schematic

def roundHalfEven (n d : Nat) : Nat :=
  let q := n / d
  let r := n % d
  if 2 * r < d then q
  else if d < 2 * r then q + 1
  else if q % 2 = 0 then q else q + 1

namespace Binary64

/-- The magnitude code nearest to `n / d`. The quotient is counted in units and cut to 53 binary
digits; a significand that is rounded up to `2 ^ 53` is carried into the exponent. -/
def nearestCode (n d : Nat) : Nat :=
  let units := n <<< 1074
  let cut := (units / d).log2 - 52
  min infinityCode ((cut <<< 52) + roundHalfEven units (d <<< cut))

def ofQuotient (n d : Nat) : Binary64 := ofCode false (nearestCode n d)

def ofNat (n : Nat) : Binary64 := ofQuotient n 1

def ofInt (n : Int) : Binary64 := ofCode (decide (n < 0)) (nearestCode n.natAbs 1)

def mulMagnitude (x y : Binary64) : Binary64 :=
  ofQuotient (x.units * y.units) (1 <<< 2148)

def divMagnitude (x y : Binary64) : Binary64 := ofQuotient x.units y.units

def powerOfTen (exponent : Nat) : Binary64 := ofNat (Nat.pow 10 exponent)

end Binary64

end Schematic
