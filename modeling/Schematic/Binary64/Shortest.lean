import Schematic.Binary64.Basic

/-!
The reals that round to a number form an interval. The shortest decimal is taken from the coarsest
grid of multiples of a power of ten that meets the interval, and is the point of the grid that is
nearest to the number.
-/

namespace Schematic

structure Decimal where
  digits : Nat
  exponent : Int
  deriving DecidableEq

inductive Tie
  | up
  | toEven
  deriving DecidableEq

namespace Decimal

def digitCount (n : Nat) : Nat := (Nat.toDigits 10 n).length

private def dropZeros : Nat → Nat → Int → Decimal
  | 0, n, e => ⟨n, e⟩
  | fuel + 1, n, e =>
      if n % 10 = 0 then dropZeros fuel (n / 10) (e + 1) else ⟨n, e⟩

def normalize (d : Decimal) : Decimal := dropZeros (digitCount d.digits) d.digits d.exponent

def leading (d : Decimal) : Int := d.exponent + digitCount d.digits - 1

end Decimal

namespace Binary64

/-- The reals, in quarters of a unit, that round to a number. -/
structure Rounds where
  low : Nat
  value : Nat
  high : Nat
  closed : Bool

/-- The gap below the least significand of an exponent is half the gap above it, except where the
exponent below has the same gap. -/
def rounds (x : Binary64) : Rounds :=
  let gap := 1 <<< x.scale
  let below := if x.significand = hiddenBit ∧ 0 < x.scale then gap else 2 * gap
  let value := 4 * x.units
  ⟨value - below, value, value + 2 * gap, x.significand % 2 == 0⟩

/-- The grid of multiples of `10 ^ exponent`, as the ratio of its step to a quarter unit. -/
structure Grid where
  num : Nat
  den : Nat

def grid (exponent : Int) : Grid :=
  if 0 ≤ exponent then ⟨Nat.pow 10 exponent.toNat <<< 1076, 1⟩
  else ⟨1 <<< 1076, Nat.pow 10 (-exponent).toNat⟩

def Rounds.meets (r : Rounds) (g : Grid) (n : Nat) : Bool :=
  if r.closed then decide (r.low * g.den ≤ n * g.num) && decide (n * g.num ≤ r.high * g.den)
  else decide (r.low * g.den < n * g.num) && decide (n * g.num < r.high * g.den)

def Rounds.onGrid? (r : Rounds) (tie : Tie) (g : Grid) : Option Nat :=
  let below := r.value * g.den / g.num
  match r.meets g below, r.meets g (below + 1) with
  | false, false => none
  | true, false => some below
  | false, true => some (below + 1)
  | true, true =>
      let twice := 2 * (r.value * g.den)
      let middle := (2 * below + 1) * g.num
      if twice < middle then some below
      else if middle < twice then some (below + 1)
      else if tie = .toEven ∧ below % 2 = 0 then some below
      else some (below + 1)

/-- Seventeen digits always give a hit, so the last line is never the answer for a number's own
interval. -/
def Rounds.search (r : Rounds) (tie : Tie) : Nat → Int → Decimal
  | 0, exponent => ⟨r.value * (grid exponent).den / (grid exponent).num, exponent⟩
  | steps + 1, exponent =>
      match r.onGrid? tie (grid exponent) with
      | some n => ⟨n, exponent⟩
      | none => r.search tie steps (exponent - 1)

def decimalExponent (x : Binary64) : Int :=
  let n := x.units
  let d := 1 <<< 1074
  if d ≤ n then Decimal.digitCount (n / d) - 1
  else
    let k := Decimal.digitCount (d / n)
    if n * Nat.pow 10 (k - 1) = d then 1 - k else -k

def shortest (tie : Tie) (x : Binary64) : Decimal :=
  (x.rounds.search tie 18 x.decimalExponent).normalize

end Binary64

end Schematic
