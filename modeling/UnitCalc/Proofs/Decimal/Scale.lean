/-
The float of a decimal.

It is the one nearest to the ratio that the decimal stands for, whatever its
size (`Decimal.toFloat_eq`). The definition settles decimals with a very large
or a very small exponent by the exponent alone, so that no power of ten is
computed that is longer than any float; that these answers are those of the
ratio follows from the ends of the range, since a digit counts for more than
three binary ones (`twoPow_le_tenPow`).

# Zeros

As the float depends on the ratio alone, zeros may move between the mantissa
and the exponent (`Decimal.toFloat_shift`). That is all that is needed to read
back the plain and the scientific spelling of one decimal alike.

# Shortest decimals

The shortest decimal of a finite float is searched for by trial, and each
trial is checked to read back; if none does, all digits are written. So it
reads back as the float in either case, with its sign
(`Decimal.toFloat_shortest`).
-/
import UnitCalc.Decimal.Shortest
import UnitCalc.Proofs.Binary.Nearest

namespace UnitCalc

theorem tenPow_pos (a : Nat) : 0 < Nat.pow 10 a :=
  Nat.pow_pos (by decide)

theorem tenPow_add (a b : Nat) : Nat.pow 10 (a + b) = Nat.pow 10 a * Nat.pow 10 b :=
  Nat.pow_add 10 a b

/-- A power of ten has more than three binary digits for each of its own. -/
theorem twoPow_le_tenPow (a : Nat) : Nat.pow 2 (3 * a) ≤ Nat.pow 10 a := by
  show 2 ^ (3 * a) ≤ 10 ^ a
  rw [Nat.pow_mul]
  exact Nat.pow_le_pow_left (by decide) a

namespace Decimal

open Binary

variable {x : Float} {negative : Bool} {quanta mantissa : Nat} {exponent : Int}

-- =================================================================== ratios

/-- What stands above in the ratio of a decimal. -/
def numerator (d : Decimal) : Nat :=
  if 0 ≤ d.exponent then Nat.pow 10 d.exponent.natAbs * d.mantissa else d.mantissa

/-- What stands below in the ratio of a decimal. -/
def denominator (d : Decimal) : Nat :=
  if 0 ≤ d.exponent then 1 else Nat.pow 10 d.exponent.natAbs

theorem denominator_pos (d : Decimal) : 0 < d.denominator := by
  unfold denominator
  split
  · exact Nat.one_pos
  · exact tenPow_pos _

/-- How many binary places the quantum has, under a name, so that nothing
evaluates the power. -/
theorem unit_eq : ∃ places, places = 1074 ∧ unit = Nat.pow 2 places := by
  unfold unit
  exact ⟨1074, rfl, rfl⟩

/-- Decimals past the exponents of floats are infinite. -/
theorem nearestBits_of_large_exponent {power : Nat} (hmantissa : mantissa ≠ 0)
    (h : 400 ≤ power) :
    nearestBits .toEven (unit * (Nat.pow 10 power * mantissa)) 1 = infinityBits := by
  obtain ⟨places, hplaces, hunit⟩ := unit_eq
  have hlow : Nat.pow 2 (places + 3 * power) ≤ unit * (Nat.pow 10 power * mantissa) := by
    rw [hunit, twoPow_add]
    refine Nat.mul_le_mul_left _ (Nat.le_trans (twoPow_le_tenPow power) ?_)
    exact Nat.le_mul_of_pos_right _ (Nat.pos_of_ne_zero hmantissa)
  have hne : unit * (Nat.pow 10 power * mantissa) ≠ 0 :=
    Nat.ne_of_gt (Nat.lt_of_lt_of_le (twoPow_pos _) hlow)
  refine nearestBits_of_large .toEven ?_
  rw [Nat.div_one]
  have hlog : places + 3 * power ≤ Nat.log2 (unit * (Nat.pow 10 power * mantissa)) :=
    (Nat.le_log2 hne).2 hlow
  omega

/-- Decimals below the exponents of floats are nothing. -/
theorem nearestBits_of_small_exponent {power : Nat} (h : 400 + mantissa.log2 < power) :
    nearestBits .toEven (unit * mantissa) (Nat.pow 10 power) = 0 := by
  obtain ⟨places, hplaces, hunit⟩ := unit_eq
  have hmantissa : mantissa < Nat.pow 2 (mantissa.log2 + 1) := Nat.lt_log2_self
  refine nearestBits_of_small .toEven ?_
  -- Three binary digits for each of the power outweigh those of the mantissa and of the quantum.
  calc 2 * (unit * mantissa)
    _ < 2 * (unit * Nat.pow 2 (mantissa.log2 + 1)) :=
      Nat.mul_lt_mul_of_pos_left (Nat.mul_lt_mul_of_pos_left hmantissa unit_pos) (by decide)
    _ = Nat.pow 2 (1 + (places + (mantissa.log2 + 1))) := by
      rw [hunit, ← twoPow_add, twoPow_add 1]
    _ ≤ Nat.pow 2 (3 * power) := Nat.pow_le_pow_right (by decide) (by omega)
    _ ≤ Nat.pow 10 power := twoPow_le_tenPow power

theorem nearestBits_zero {d : Nat} (hd : 0 < d) : nearestBits .toEven 0 d = 0 :=
  nearestBits_of_small .toEven hd

/-- The float of a decimal is the one nearest to its ratio. What is settled by
the size of the exponent alone is settled as the ratio would have it. -/
theorem toFloat_eq (d : Decimal) : d.toFloat = nearest d.negative d.numerator d.denominator := by
  have hnone : nearestBits .toEven 0 1 = 0 := nearestBits_zero Nat.one_pos
  obtain ⟨negative, mantissa, exponent⟩ := d
  unfold toFloat numerator denominator nearest zero infinity nearestQuanta
  dsimp only
  split
  · next hzero =>
      subst hzero
      have hpos := tenPow_pos exponent.natAbs
      split
      · rw [Nat.mul_zero, Nat.mul_zero, nearestBits_zero Nat.one_pos]
      · rw [Nat.mul_zero, nearestBits_zero hpos, hnone]
  · next hmantissa =>
      split
      · next hlarge =>
          rw [if_pos (by omega), if_pos (by omega),
            nearestBits_of_large_exponent hmantissa (by omega)]
      · split
        · next hsmall =>
            rw [if_neg (by omega), if_neg (by omega), hnone,
              nearestBits_of_small_exponent (by omega)]
        · split <;> rfl

/-- A whole number is rounded from its quanta. -/
theorem toFloat_whole (negative : Bool) (mantissa : Nat) :
    (⟨negative, mantissa, 0⟩ : Decimal).toFloat
      = nearestQuanta .toEven negative (unit * mantissa) 1 := by
  have hmantissa : Nat.pow 10 0 * mantissa = mantissa := Nat.one_mul mantissa
  rw [toFloat_eq]
  unfold nearest numerator denominator
  dsimp only
  rw [if_pos (Int.le_refl 0), if_pos (Int.le_refl 0), Int.natAbs_zero, hmantissa]

-- ==================================================================== zeros

/-- A decimal with more zeros in its mantissa and an exponent that makes up
for them. -/
def shift (d : Decimal) (zeros : Nat) : Decimal :=
  ⟨d.negative, Nat.pow 10 zeros * d.mantissa, d.exponent - zeros⟩

/-- Its ratio is the same. -/
theorem ratio_shift (d : Decimal) (zeros : Nat) :
    (d.shift zeros).numerator * d.denominator = d.numerator * (d.shift zeros).denominator := by
  obtain ⟨negative, mantissa, exponent⟩ := d
  unfold shift numerator denominator
  dsimp only
  -- The exponent stays above zero, or falls below it on the way, or was there already.
  by_cases hwhole : 0 ≤ exponent - zeros
  · have hsum : exponent.natAbs = (exponent - zeros).natAbs + zeros := by omega
    rw [if_pos hwhole, if_pos hwhole, if_pos (by omega), if_pos (by omega), hsum, tenPow_add]
    ring
  · rw [if_neg hwhole, if_neg hwhole]
    by_cases hexponent : 0 ≤ exponent
    · have hsum : exponent.natAbs + (exponent - zeros).natAbs = zeros := by omega
      have hpower := tenPow_add exponent.natAbs (exponent - zeros).natAbs
      rw [hsum] at hpower
      rw [if_pos hexponent, if_pos hexponent, hpower]
      ring
    · have hsum : (exponent - zeros).natAbs = exponent.natAbs + zeros := by omega
      rw [if_neg hexponent, if_neg hexponent, hsum, tenPow_add]
      ring

/-- Zeros may move between the mantissa and the exponent. -/
theorem toFloat_shift (d : Decimal) (zeros : Nat) : (d.shift zeros).toFloat = d.toFloat := by
  have hratio : unit * (d.shift zeros).numerator * d.denominator
      = unit * d.numerator * (d.shift zeros).denominator := by
    rw [Nat.mul_assoc, ratio_shift, Nat.mul_assoc]
  rw [toFloat_eq, toFloat_eq]
  unfold nearest nearestQuanta
  rw [nearestBits_congr .toEven (denominator_pos _) (denominator_pos _) hratio]
  rfl

-- ========================================================= shortest decimals

/-- All digits of a number of quanta come to these. -/
theorem toFloat_exact (quanta : Nat) (sign : Bool) :
    ({ exact quanta with negative := sign } : Decimal).toFloat
      = nearestQuanta .toEven sign quanta 1 := by
  obtain ⟨places, hplaces, hunit⟩ := unit_eq
  have hdigits : ({ exact quanta with negative := sign } : Decimal)
      = ⟨sign, Nat.pow 5 places * quanta, -places⟩ := by
    rw [hplaces]
    rfl
  -- The quantum is a power of two, and as many fives make a power of ten of it.
  have hten : Nat.pow 10 places = Nat.pow 2 places * Nat.pow 5 places := Nat.mul_pow 2 5 places
  have hbits : nearestBits .toEven (unit * (Nat.pow 5 places * quanta)) (Nat.pow 10 places)
      = nearestBits .toEven quanta 1 := by
    refine nearestBits_congr .toEven (tenPow_pos places) Nat.one_pos ?_
    rw [hunit, hten]
    ring
  have hnegative : ¬ 0 ≤ -(places : Int) := by omega
  rw [toFloat_eq, hdigits]
  unfold nearest nearestQuanta numerator denominator
  dsimp only
  rw [if_neg hnegative, if_neg hnegative, Int.natAbs_neg, Int.natAbs_natCast, hbits]

/-- The shortest decimal of a finite float, with its sign, is read as the
float. -/
theorem toFloat_shortest (h : ofFloat x = .finite negative quanta) :
    ({ shortest quanta with negative } : Decimal).toFloat = x := by
  rw [eq_nearestQuanta .toEven h]
  rcases shortest_cases quanta with hback | hexact
  · unfold readsBack at hback
    rw [beq_iff_eq, toFloat_eq] at hback
    rw [toFloat_eq]
    exact nearestQuanta_sign hback negative
  · rw [hexact]
    exact toFloat_exact quanta negative

end Decimal

end UnitCalc
