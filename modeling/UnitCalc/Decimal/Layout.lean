/-
Decimals laid out as text.

A `Layout` says between which sizes a number is written with its point in
place; outside of them the first digit stands before the point and a power of
ten follows. `Layout.standard` is the form in which every result is shown.

The three ways of placing the point (`placed`) and the power (`powered`) only
move the point along the digits and fill up with zeros, so what is written is
a spelling of the same decimal. That it is read back as the same float is the
subject of `Proofs/Quantity/Returned`, whose cases are these.
-/
import UnitCalc.Decimal.Shortest

namespace UnitCalc

/-- The choices of a written form. A number has its point in place when the
count of digits before the point lies between the two bounds; the exponent
is filled with zeros to the width. -/
structure Layout where
  leastPoint : Int
  greatestPoint : Int
  exponentWidth : Nat

namespace Layout

/-- Points stay in place from `0.0001` up to sixteen whole digits, and
exponents have two digits. -/
def standard : Layout := ⟨-3, 16, 2⟩

/-- Drops the zeros at the end of a run of digits, but not the first
digit. -/
def dropTrailingZeros (digits : List Char) : List Char :=
  match (digits.reverse.dropWhile (· == '0')).reverse with
  | [] => digits.take 1
  | kept => kept

/-- Digits with a point after so many of them, filled up with zeros on
either side; there is always a digit on both sides of the point. -/
def placed (digits : List Char) (point : Int) : List Char :=
  if point ≤ 0 then '0' :: '.' :: (List.replicate point.natAbs '0' ++ digits)
  else if (digits.length : Int) ≤ point then
    digits ++ List.replicate (point.natAbs - digits.length) '0' ++ ['.', '0']
  else digits.take point.natAbs ++ '.' :: digits.drop point.natAbs

/-- Digits with a point after the first, if there are others, and a power
of ten. -/
def powered (width : Nat) (digits : List Char) (exponent : Int) : List Char :=
  let mantissa := match digits with
    | first :: second :: more => first :: '.' :: second :: more
    | short => short
  let power := Nat.toDigits 10 exponent.natAbs
  mantissa ++ 'e' :: (if exponent < 0 then '-' else '+') ::
    (List.replicate (width - power.length) '0' ++ power)

/-- The magnitude of a decimal as text. -/
def magnitudeText (layout : Layout) (d : Decimal) : List Char :=
  let digits := Nat.toDigits 10 d.mantissa
  let point := digits.length + d.exponent
  let digits := dropTrailingZeros digits
  if layout.leastPoint ≤ point ∧ point ≤ layout.greatestPoint then placed digits point
  else powered layout.exponentWidth digits (point - 1)

/-- A float as text: the shortest digits that read back, and names for what
is no finite number. -/
def floatText (layout : Layout) (x : Float) : List Char :=
  match Binary.ofFloat x with
  | .nan => "nan".toList
  | .infinite negative => (if negative then ['-'] else []) ++ "inf".toList
  | .finite negative quanta =>
    (if negative then ['-'] else []) ++
      layout.magnitudeText (if quanta = 0 then ⟨false, 0, 0⟩ else Decimal.shortest quanta)

end Layout

end UnitCalc
