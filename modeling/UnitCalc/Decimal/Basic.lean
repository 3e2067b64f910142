/-
Decimal numbers: a sign, a whole mantissa and a power of ten.

Their meaning as a float is the nearest one, found exactly as the rounding of
one ratio; powers that no float can reach are settled by their size alone, so
a huge exponent costs nothing. The bounds for this are generous: a mantissa of
`b` binary digits times a power of ten below `-(400 + b)` is far below the
least positive float, and that both bounds only cut off what would be rounded
to infinity or zero anyway is shown in `Proofs/Decimal/Scale`
(`toFloat_eq`), after which every decimal is one rounded ratio.
-/
import UnitCalc.Binary.Round

namespace UnitCalc

/-- The number `± mantissa * 10 ^ exponent`. -/
structure Decimal where
  negative : Bool
  mantissa : Nat
  exponent : Int
  deriving DecidableEq, Repr

namespace Decimal

/-- The float nearest to a decimal, ties to the even neighbour; infinity
above the range and zero below it. -/
def toFloat (d : Decimal) : Float :=
  if d.mantissa = 0 then Binary.zero d.negative
  else if 400 ≤ d.exponent then Binary.infinity d.negative
  else if d.exponent < -(400 + d.mantissa.log2 : Int) then Binary.zero d.negative
  else if 0 ≤ d.exponent then
    Binary.nearest d.negative (Nat.pow 10 d.exponent.natAbs * d.mantissa) 1
  else Binary.nearest d.negative d.mantissa (Nat.pow 10 d.exponent.natAbs)

end Decimal

end UnitCalc
