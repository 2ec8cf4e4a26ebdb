import Schematic.Binary64.Rounding
import Schematic.Json.Basic

/-!
An integer that fits 64 bits is read exactly. Any other numeral is read as a significand of 64 bits,
to which digits are taken up as long as they fit, and a power of ten. As each step rounds, a long
numeral may be read as a neighbour of the nearest number.
-/

namespace Schematic.Json.Numeral

def limit : Nat := UInt64.size - 1

def digit? (c : Char) : Option Nat :=
  if '0' ≤ c ∧ c ≤ '9' then some (c.toNat - '0'.toNat) else none

def digits : List Char → List Nat × List Char
  | [] => ([], [])
  | c :: cs =>
      match digit? c with
      | some d =>
          let (ds, rest) := digits cs
          (d :: ds, rest)
      | none => ([], c :: cs)

def takeUp : Nat → List Nat → Nat × List Nat
  | n, [] => (n, [])
  | n, d :: ds => if n * 10 + d ≤ limit then takeUp (n * 10 + d) ds else (n, d :: ds)

def ofDigits (ds : List Nat) : Nat := ds.foldl (fun n d => n * 10 + d) 0

/-- An exponent below -308 is brought to bear in two steps, the first of which divides by the
largest power of ten there is. -/
def scale? (significand : Nat) (exponent : Int) : Option Binary64 :=
  let x := Binary64.ofNat significand
  let n := exponent.natAbs
  if 0 ≤ exponent then
    if n ≤ 308 then
      let y := x.mulMagnitude (.powerOfTen n)
      if y.isInfinite then none else some y
    else if x.isZero then some x
    else none
  else if n ≤ 308 then some (x.divMagnitude (.powerOfTen n))
  else if n ≤ 616 then
    some ((x.divMagnitude (.powerOfTen 308)).divMagnitude (.powerOfTen (n - 308)))
  else some .zero

def exponent? (cs : List Char) : Option (Int × List Char) :=
  let (negative, cs) := match cs with
    | '+' :: cs => (false, cs)
    | '-' :: cs => (true, cs)
    | cs => (false, cs)
  match digits cs with
  | ([], _) => none
  | (ds, rest) => some (if negative then -(ofDigits ds : Int) else ofDigits ds, rest)

def float? (negative : Bool) (significand : Nat) (exponent : Int) (rest : List Char) :
    Option (Json × List Char) := do
  let x ← scale? significand exponent
  return (.float (if negative then x.negate else x), rest)

def afterFraction? (negative : Bool) (significand : Nat) (exponent : Int) :
    List Char → Option (Json × List Char)
  | 'e' :: cs | 'E' :: cs => do
      let (e, rest) ← exponent? cs
      float? negative significand (exponent + e) rest
  | rest => float? negative significand exponent rest

def fraction? (negative : Bool) (significand : Nat) (exponent : Int) (cs : List Char) :
    Option (Json × List Char) :=
  match digits cs with
  | ([], _) => none
  | (ds, rest) =>
      let (n, left) := takeUp significand ds
      afterFraction? negative n (exponent - (ds.length - left.length : Nat)) rest

/-- Zero with a minus sign, and what does not fit 64 bits with its sign, are binary64 numbers. -/
def integer (negative : Bool) (n : Nat) : Json :=
  if !negative then .integer n
  else if 0 < n ∧ n ≤ UInt64.size / 2 then .integer (-n)
  else .float (Binary64.ofNat n).negate

def unsigned? (negative : Bool) (cs : List Char) : Option (Json × List Char) :=
  match digits cs with
  | ([], _) => none
  | (0 :: _ :: _, _) => none
  | (ds, rest) =>
      let (n, left) := takeUp 0 ds
      match rest with
      | '.' :: rest => fraction? negative n left.length rest
      | 'e' :: _ | 'E' :: _ => afterFraction? negative n left.length rest
      | _ =>
          if left.isEmpty then some (integer negative n, rest)
          else float? negative n left.length rest

def read? : List Char → Option (Json × List Char)
  | '-' :: cs => unsigned? true cs
  | cs => unsigned? false cs

end Schematic.Json.Numeral
