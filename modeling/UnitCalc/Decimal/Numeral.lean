/-
Numerals: an optional sign, digits of any script with at most one point and
at least one digit, and an optional power of ten.

`Numeral.longest?` takes the longest numeral at the start of a text. Each part
is read greedily and no part gives back what it took: an exponent mark counts
only with a digit behind it, and a point belongs to the numeral as soon as it
has a digit on either side. Nothing has to be given back, because what ends
one part cannot begin inside of it.

The grammar that this reads is stated apart from it in
`Proofs/Decimal/Numeral`, where the answer of `longest?` is shown to be the
longest text of the grammar at the start (`longest?_eq_some_iff`).
-/
import UnitCalc.Decimal.Basic
import UnitCalc.Text.Digit

namespace UnitCalc

/-- A numeral by its parts. -/
structure Numeral where
  negative : Bool
  whole : List Char
  fraction : List Char
  exponent : Int
  deriving DecidableEq, Repr

namespace Numeral

open Text

/-- An optional sign, and whether it is a minus. -/
def takeSign : List Char → Bool × List Char
  | '-' :: rest => (true, rest)
  | '+' :: rest => (false, rest)
  | rest => (false, rest)

/-- The digits around an optional point, at least one of them. -/
def takeMantissa? (cs : List Char) : Option (List Char × List Char × List Char) :=
  let whole := cs.takeWhile isDigit
  match cs.dropWhile isDigit with
  | '.' :: rest =>
    let fraction := rest.takeWhile isDigit
    if whole.isEmpty && fraction.isEmpty then none
    else some (whole, fraction, rest.dropWhile isDigit)
  | rest => if whole.isEmpty then none else some (whole, [], rest)

/-- The power of ten behind an exponent mark; without one, zero. -/
def takeExponent (cs : List Char) : Int × List Char :=
  match cs with
  | mark :: rest =>
    if mark == 'e' || mark == 'E' then
      let (negative, after) := takeSign rest
      let digits := after.takeWhile isDigit
      if digits.isEmpty then (0, cs)
      else
        let n : Int := digitsValue digits
        (if negative then -n else n, after.dropWhile isDigit)
    else (0, cs)
  | [] => (0, [])

/-- The longest numeral at the start of a text, and what follows it. -/
def longest? (cs : List Char) : Option (Numeral × List Char) :=
  let (negative, unsigned) := takeSign cs
  match takeMantissa? unsigned with
  | none => none
  | some (whole, fraction, rest) =>
    let (exponent, rest) := takeExponent rest
    some (⟨negative, whole, fraction, exponent⟩, rest)

/-- The number a numeral stands for. -/
def toDecimal (n : Numeral) : Decimal :=
  ⟨n.negative, digitsValue (n.whole ++ n.fraction), n.exponent - n.fraction.length⟩

/-- The float nearest to a numeral. -/
def toFloat (n : Numeral) : Float :=
  n.toDecimal.toFloat

end Numeral

end UnitCalc
