import Schematic.Binary64.Shortest

namespace Schematic

structure NumberLayout where
  tie : Tie
  /-- Whether a number whose leading digit has this exponent is written without an exponent. -/
  positional : Int → Bool
  afterWhole : String
  exponentMark : Bool → String
  infinity : String
  nan : String

namespace NumberLayout

private def zeros (n : Nat) : String := String.ofList (List.replicate n '0')

def writePositional (layout : NumberLayout) (d : Decimal) : String :=
  let text := toString d.digits
  if 0 ≤ d.exponent then text ++ zeros d.exponent.toNat ++ layout.afterWhole
  else
    let places := (-d.exponent).toNat
    let cs := text.toList
    if places < cs.length then
      String.ofList (cs.take (cs.length - places)) ++ "." ++
        String.ofList (cs.drop (cs.length - places))
    else "0." ++ zeros (places - cs.length) ++ text

def writeExponent (layout : NumberLayout) (d : Decimal) : String :=
  let e := d.leading
  let mantissa := match (toString d.digits).toList with
    | c :: [] => String.ofList [c]
    | c :: cs => String.ofList (c :: '.' :: cs)
    | [] => ""
  mantissa ++ layout.exponentMark (decide (e < 0)) ++ toString e.natAbs

def writeMagnitude (layout : NumberLayout) (x : Binary64) : String :=
  if x.isZero then "0" ++ layout.afterWhole
  else
    let d := x.shortest layout.tie
    if layout.positional d.leading then layout.writePositional d else layout.writeExponent d

def write (layout : NumberLayout) (x : Binary64) : String :=
  if x.isNaN then layout.nan
  else
    (if x.signBit then "-" else "") ++
      if x.isInfinite then layout.infinity else layout.writeMagnitude x

end NumberLayout

end Schematic
