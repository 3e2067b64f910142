/-
What a 64-bit float stands for.

Every finite float is a whole number of quanta of size `2 ^ -1074`, the least
positive one, so a sign and a natural number say it exactly, and comparisons,
whole parts and remainders are questions about natural numbers.
`Binary.ofFloat` reads the bits; `Binary/Round` goes the other way.

# Large constants

A unit is `2 ^ 1074` quanta, and nothing may ever count down from that. Powers
are written `Nat.pow`: that is one function, where the power sign picks its
instance by what is imported. Products with a large constant have the
constant in front, since a product unfolds along its second factor.

The theory of these meanings is under `Proofs/Binary`: the bits of a meaning
(`Packed`), the rational number it is (`Value`), and that the operations on
floats are the exact ones rounded once (`Arithmetic`).
-/
namespace UnitCalc

/-- The meaning of a float: a sign and a magnitude in quanta, an infinity,
or no number. -/
inductive Binary where
  | finite (negative : Bool) (quanta : Nat)
  | infinite (negative : Bool)
  | nan
  deriving DecidableEq, Repr

namespace Binary

/-- How many quanta make one. A product with it is written with `unit` in
front, and so for every large constant: a product unfolds along its second
factor, and nothing can count down from this one. -/
def unit : Nat := Nat.pow 2 1074

/-- Reads the sign, exponent and fraction fields of 64 bits. -/
def ofBits (bits : Nat) : Binary :=
  let negative := bits / Nat.pow 2 63 % 2 == 1
  let exponent := bits / Nat.pow 2 52 % Nat.pow 2 11
  let fraction := bits % Nat.pow 2 52
  if exponent = 2047 then
    if fraction = 0 then .infinite negative else .nan
  else if exponent = 0 then .finite negative fraction
  else .finite negative (Nat.pow 2 (exponent - 1) * (Nat.pow 2 52 + fraction))

/-- The meaning of a float. -/
def ofFloat (x : Float) : Binary :=
  ofBits x.toBits.toNat

/-- Whether the sign is minus; the zero with a minus sign counts. -/
def isNegative : Binary → Bool
  | finite negative _ => negative
  | infinite negative => negative
  | nan => false

/-- The magnitude as a whole number of ones, if it is one. -/
def wholeMagnitude? : Binary → Option Nat
  | finite _ quanta => if quanta % unit = 0 then some (quanta / unit) else none
  | _ => none

-- ================================================ whole parts

/-- The whole number next toward zero; infinities and no number have
none. -/
def truncate? : Binary → Option Int
  | finite false quanta => some (quanta / unit : Nat)
  | finite true quanta => some (-(quanta / unit : Nat))
  | _ => none

/-- The greatest whole number that is not above. -/
def floor? : Binary → Option Int
  | finite false quanta => some (quanta / unit : Nat)
  | finite true quanta => some (-(((unit - 1) + quanta) / unit : Nat))
  | _ => none

/-- The least whole number that is not below. -/
def ceiling? : Binary → Option Int
  | finite false quanta => some (((unit - 1) + quanta) / unit : Nat)
  | finite true quanta => some (-(quanta / unit : Nat))
  | _ => none

end Binary

end UnitCalc
