/-
The float nearest to a ratio.

`Binary.nearest` scales the ratio to quanta, keeps 53 binary digits and rounds
the rest away; what a carry out of the last digit changes is exactly the next
exponent, because the exponent field stands right above the fraction. So one
sum of two fields rounds normal and subnormal numbers alike, and the numbers
too large to be finite are cut off at the bits of infinity.

Whole numbers, decimal texts, powers of ten and quotients of whole numbers
all become floats here, each by saying which ratio it is. That the result is
the nearest float is read off `roundDiv_near`, which bounds what a rounded
quotient is off by; `Proofs/Binary/Rounded` has the rest of the theory, that
rounding keeps order and keeps what a float can hold.
-/
import UnitCalc.Binary.Basic

namespace UnitCalc

/-- Which neighbour a value midway between two whole numbers goes to. -/
inductive Tie where
  | toEven
  | up
  deriving DecidableEq, Repr

/-- The whole number nearest to `n / d`. -/
def roundDiv (tie : Tie) (n d : Nat) : Nat :=
  let q := n / d
  let r := n % d
  if 2 * r < d then q
  else if d < 2 * r then q + 1
  else if tie = .toEven ∧ q % 2 = 0 then q
  else q + 1

/-- The quotient is never off by more than half of the divisor. -/
theorem roundDiv_near (tie : Tie) (n : Nat) {d : Nat} (hd : 0 < d) :
    2 * n ≤ 2 * (roundDiv tie n d * d) + d ∧ 2 * (roundDiv tie n d * d) ≤ 2 * n + d := by
  have hn : n / d * d + n % d = n := Nat.div_add_mod' n d
  have hmul : (n / d + 1) * d = n / d * d + d := Nat.succ_mul _ _
  have hlt : n % d < d := Nat.mod_lt _ hd
  simp only [roundDiv]
  split
  · omega
  · split
    · omega
    · split <;> omega

namespace Binary

/-- The bits that mean infinity, and the end of the finite ones. -/
def infinityBits : Nat := 2047 * Nat.pow 2 52

/-- The bits, sign apart, of the float nearest to `n / d` quanta; from the
end of the finite range on, those of infinity. It stays folded, so that a
statement about an unknown number is never unfolded bit by bit. -/
@[irreducible] def nearestBits (tie : Tie) (n d : Nat) : Nat :=
  let shift := Nat.log2 (n / d) - 52
  min infinityBits (Nat.pow 2 52 * shift + roundDiv tie n (Nat.pow 2 shift * d))

/-- Sets the sign bit. -/
def signedBits (negative : Bool) (bits : Nat) : Nat :=
  if negative then Nat.pow 2 63 + bits else bits

/-- The float with a sign and a magnitude of `n / d` quanta, rounded to the
nearest. -/
def nearestQuanta (tie : Tie) (negative : Bool) (n d : Nat) : Float :=
  Float.ofBits (UInt64.ofNat (signedBits negative (nearestBits tie n d)))

/-- The infinity of a sign. -/
def infinity (negative : Bool) : Float :=
  Float.ofBits (UInt64.ofNat (signedBits negative infinityBits))

/-- The zero of a sign. -/
def zero (negative : Bool) : Float :=
  nearestQuanta .toEven negative 0 1

/-- The float nearest to `n / d`, a tie going to the even neighbour. -/
def nearest (negative : Bool) (n d : Nat) : Float :=
  nearestQuanta .toEven negative (unit * n) d

/-- The float nearest to `n / d`, or nothing beyond the finite range. -/
def nearest? (negative : Bool) (n d : Nat) : Option Float :=
  if nearestBits .toEven (unit * n) d < infinityBits then some (nearest negative n d) else none

/-- The float nearest to a whole number, if it is in the finite range. -/
def ofInt? (n : Int) : Option Float :=
  nearest? (decide (n < 0)) n.natAbs 1

/-- The float nearest to the quotient of a whole number and a positive
one. -/
def ofQuotient? (n : Int) (d : Nat) : Option Float :=
  nearest? (decide (n < 0)) n.natAbs d

/-- The power of ten, rounded to the nearest with a tie going up; nothing
beyond the finite range, and zero below it. -/
def tenPower? (n : Int) : Option Float :=
  if 309 ≤ n then none
  else if n ≤ -400 then some (zero false)
  else if 0 ≤ n then some (nearestQuanta .up false (unit * Nat.pow 10 n.natAbs) 1)
  else some (nearestQuanta .up false unit (Nat.pow 10 n.natAbs))

-- ======================================= exact operations on floats

/-- Whether a float is a number and no infinity. -/
def isFinite (x : Float) : Bool :=
  match ofFloat x with
  | finite _ _ => true
  | _ => false

/-- The magnitude of the first float under the sign of the second. -/
def withSignOf (x sign : Float) : Float :=
  let magnitude := x.abs
  if (ofFloat sign).isNegative then -magnitude else magnitude

/-- The exact remainder of a division that rounds its quotient toward zero;
it has the sign of the dividend. A divisor of zero and an infinite dividend
have none. -/
def remainder? (x y : Float) : Option Float :=
  match ofFloat x, ofFloat y with
  | nan, _ => some x
  | _, nan => some y
  | infinite _, _ => none
  | finite _ _, infinite _ => some x
  | finite negative n, finite _ d =>
    if d = 0 then none else some (nearestQuanta .toEven negative (n % d) 1)

end Binary

end UnitCalc
