/-
Rounding to a whole number.

Without decimal places the scale is one, so the magnitude is kept and a half
is added to it; the ones of the sum come back under the sign of the argument
(`Numeric.ofFloat_roundTo_zero`). The product with the scale and the quotient
by it are exact, because one is a float and its operand is. The sum is
rounded, and this is where the function may err.

# Which arguments go astray

The ones are the whole number nearest unless the half takes the argument too
far, which it does for the float below one half and for odd numbers of full
length (`Misrounded`). What can be said of the rounded sum is said in
`Proofs/Binary/Half`, of magnitudes alone; here it is put in terms of the
function and its argument (`Numeric.round_nearest_iff`).
-/
import UnitCalc.Proofs.Binary.Arithmetic
import UnitCalc.Proofs.Binary.Value
import UnitCalc.Proofs.Symbol.Builtins

namespace UnitCalc.Numeric

open Binary

variable {x : Float} {negative : Bool} {quanta : Nat}

theorem ofFloat_half : ofFloat 0.5 = .finite false half := by
  decide +kernel

theorem short_unit : Short unit := by
  have hone := @short_ones 1 (Nat.one_le_two_pow)
  rwa [Nat.mul_one] at hone

/-- The scale of no decimal places is one. -/
theorem exists_scale : ∃ scale, tenPower? 0 = some scale ∧ ofFloat scale = .finite false unit := by
  have hpower : Nat.pow 10 (Int.natAbs 0) = 1 := rfl
  have hrange : unit ≤ unit * greatest * 1 := by
    rw [Nat.mul_one]
    exact Nat.le_mul_of_pos_right unit greatest_pos
  refine ⟨nearestQuanta .up false unit 1, ?_, ?_⟩
  · unfold tenPower?
    rw [if_neg (by decide), if_neg (by decide), if_pos (by decide), hpower, Nat.mul_one]
  · rw [ofFloat_nearestQuanta false Nat.one_pos (nearestBits_lt .up Nat.one_pos hrange),
      roundQuanta_of_short .up short_unit]

/-- The float of a whole number in the range. -/
theorem ofFloat_nearest_ones {w : Nat} (hshort : Short (unit * w)) (hrange : w ≤ greatest) :
    ofFloat (nearest false w 1) = .finite false (unit * w) := by
  have hbits : unit * w ≤ unit * greatest * 1 := by
    rw [Nat.mul_one]
    exact Nat.mul_le_mul_left unit hrange
  unfold nearest
  rw [ofFloat_nearestQuanta false Nat.one_pos (nearestBits_lt .toEven Nat.one_pos hbits),
    roundQuanta_of_short .toEven hshort]

theorem halfUp_le (h : quanta ≤ unit * greatest) : halfUp quanta ≤ greatest :=
  div_unit_le (roundQuanta_add_half_le h)

theorem floor?_finite (quanta : Nat) :
    (Binary.finite false quanta).floor? = some ((quanta / unit : Nat) : Int) :=
  rfl

theorem floor?_add_half (h : ofFloat x = .finite false quanta) :
    (ofFloat (x + 0.5)).floor? = some (halfUp quanta : Int) := by
  rw [ofFloat_add h ofFloat_half (roundQuanta_add_half_le (quanta_le h)), floor?_finite]
  unfold halfUp
  rfl

/-- A product with one. -/
theorem ofFloat_mul_one (hx : ofFloat x = .finite negative quanta)
    {one : Float} (hone : ofFloat one = .finite false unit) :
    ofFloat (x * one) = .finite negative quanta := by
  have hsame : roundQuanta .toEven (quanta * unit) unit = quanta := by
    rw [roundQuanta_congr .toEven unit_pos Nat.one_pos (Nat.mul_one (quanta * unit)),
      roundQuanta_of_short .toEven (short_of_ofFloat hx)]
  have hproduct := ofFloat_mul hx hone (by rw [hsame]; exact quanta_le hx)
  rwa [hsame, Bool.bne_false] at hproduct

/-- A quotient by one. -/
theorem ofFloat_div_one (hx : ofFloat x = .finite negative quanta)
    {one : Float} (hone : ofFloat one = .finite false unit) :
    ofFloat (x / one) = .finite negative quanta := by
  have hsame : roundQuanta .toEven (unit * quanta) unit = quanta := by
    rw [Nat.mul_comm, roundQuanta_congr .toEven unit_pos Nat.one_pos (Nat.mul_one (quanta * unit)),
      roundQuanta_of_short .toEven (short_of_ofFloat hx)]
  have hquotient := ofFloat_div hx hone unit_pos (by rw [hsame]; exact quanta_le hx)
  rwa [hsame, Bool.bne_false] at hquotient

/-- Without decimal places the ones of the magnitude and a half come back
under the sign. -/
theorem ofFloat_roundTo_zero (h : ofFloat x = .finite negative quanta) :
    ofFloat (roundTo x 0) = .finite negative (unit * halfUp quanta) := by
  obtain ⟨scale, hscale, hone⟩ := exists_scale
  have hscaled : ofFloat (x.abs * scale) = .finite false quanta :=
    ofFloat_mul_one (ofFloat_abs h) hone
  have hsome : (scale == 0.0) = false := by
    rw [Bool.eq_false_iff]
    intro hzero
    obtain ⟨_, hnothing⟩ := beq_zero_iff.1 hzero
    rw [hone] at hnothing
    exact Nat.ne_of_gt unit_pos (Binary.finite.inj hnothing).2
  have hback : ofFloat (nearest false (halfUp quanta) 1 / scale)
      = .finite false (unit * halfUp quanta) :=
    ofFloat_div_one (ofFloat_nearest_ones (short_ones_halfUp quanta) (halfUp_le (quanta_le h))) hone
  unfold roundTo
  rw [hscale]
  dsimp only
  rw [isFinite_of_eq hscaled, hsome, floor?_add_half hscaled, Option.getD_some,
    Int.natAbs_natCast]
  simp only [Bool.not_true, Bool.false_eq_true, ↓reduceIte]
  exact ofFloat_withSignOf hback h

-- ============================================================= the function

variable {v : Value}

theorem round_single (hread : v.toFloat = .ok x) (hfinite : isFinite x = true) :
    round [v] = .ok (.number (roundTo x 0)) := by
  unfold round
  rw [argument_eq rfl hread hfinite]
  rfl

/-- Called with one finite number, rounding answers a whole number, and that
one again when it is called with it. The whole number is the nearest, the one
farther from zero of two, and a whole number is kept, unless the argument is
one of those that a half takes too far. -/
theorem round_nearest_iff (hread : v.toFloat = .ok x) (hfinite : isFinite x = true) :
    ∃ (y : Float) (n : ℤ), round [v] = .ok (.number y) ∧ isFinite y = true ∧ value y = n
      ∧ round [.number y] = .ok (.number y)
      ∧ (IsNearest (value x) n ↔ ¬ Misrounded (value x))
      ∧ ((∃ m : ℤ, value x = m) → (y = x ↔ ¬ Misrounded (value x))) := by
  obtain ⟨negative, quanta, hx⟩ := exists_of_isFinite hfinite
  have hy := ofFloat_roundTo_zero hx
  have hshort := short_of_ofFloat hx
  have hfiniteY := isFinite_of_eq hy
  refine ⟨roundTo x 0, if negative then -(halfUp quanta : ℤ) else halfUp quanta,
    round_single hread hfinite, hfiniteY, value_ones hy, ?_, ?_, ?_⟩
  · have hagain := ofFloat_roundTo_zero hy
    rw [halfUp_halfUp hshort] at hagain
    rw [round_single rfl hfiniteY, eq_of_ofFloat hagain hy]
  · rw [isNearest_iff hx, halfUp_eq_iff hshort, misrounded_iff hx]
  · intro hwhole
    obtain ⟨k, hk⟩ := exists_ones hx hwhole
    -- A whole argument is kept exactly if the ones of the sum are its own.
    have hkept : roundTo x 0 = x ↔ halfUp quanta = k := by
      rw [hk] at hx
      constructor
      · intro hsame
        rw [hsame, hx] at hy
        exact (Nat.mul_right_inj (Nat.ne_of_gt unit_pos)).1 (Binary.finite.inj hy).2.symm
      · intro hsame
        rw [hsame] at hy
        exact eq_of_ofFloat hy hx
    rw [hkept, misrounded_iff hx, hk]
    rw [hk] at hshort
    exact halfUp_ones_iff hshort

theorem round_nearest_two_and_a_half :
    isFinite 2.5 = true
      ∧ ∃ (y : Float) (n : ℤ), round [.number 2.5] = .ok (.number y) ∧ isFinite y = true
        ∧ value y = n ∧ round [.number y] = .ok (.number y)
        ∧ (IsNearest (value 2.5) n ↔ ¬ Misrounded (value 2.5))
        ∧ ((∃ m : ℤ, value 2.5 = m) → (y = 2.5 ↔ ¬ Misrounded (value 2.5))) :=
  ⟨by decide +kernel, round_nearest_iff rfl (by decide +kernel)⟩

/-- The greatest float below one half goes to one, though zero is nearer. -/
theorem round_below_half :
    ¬ ∀ x : Float, isFinite x = true → ∃ (y : Float) (n : ℤ),
      round [.number x] = .ok (.number y) ∧ value y = n ∧ IsNearest (value x) n := by
  intro hall
  obtain ⟨y, n, hround, hy, hnearest⟩ := hall 0.49999999999999994 (by decide +kernel)
  have hx : ofFloat 0.49999999999999994 = .finite false (Nat.pow 2 1020 * (Nat.pow 2 53 - 1)) := by
    decide +kernel
  have hover : Overshoots (Nat.pow 2 1020 * (Nat.pow 2 53 - 1)) := by
    refine .inl ?_
    unfold IsBelowHalf
    decide +kernel
  rw [round_single rfl (by decide +kernel)] at hround
  obtain rfl : roundTo 0.49999999999999994 0 = y := Value.number.inj (Except.ok.inj hround)
  have hones := value_ones (ofFloat_roundTo_zero hx)
  rw [hy, Int.cast_inj] at hones
  rw [hones, isNearest_iff hx, halfUp_eq_iff (short_of_ofFloat hx)] at hnearest
  exact hnearest hover

end UnitCalc.Numeric
