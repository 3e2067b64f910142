/-
The rational numbers that floats stand for.

Statements that are not about floats as such speak of these: `value` is the
number of a finite float, and counts what is no finite number as nothing, so
wherever it is used for more than finite floats the statement asks for
finiteness beside it. Quanta are the bridge. An equation or an order of values
becomes one of quanta by `unit`, and is shown in natural numbers.

# Whole parts and nearest numbers

* `cut` is the whole part toward zero, which is what floats are cut to
  (`truncate?_eq`).
* `IsNearest` is the whole number nearest to a number, and of two the one
  farther from zero. Of a finite float it is the ones of the magnitude and a
  half, under the sign (`isNearest_iff`).
* `Misrounded` are the values of the floats that a half takes too far;
  `misrounded_iff` puts `Overshoots` into these words.
-/
import UnitCalc.Proofs.Binary.Half

namespace UnitCalc.Binary

variable {x y : Float} {negative : Bool} {quanta : Nat}

/-- The number that a meaning stands for; what is no number counts as
nothing. -/
def toRat : Binary → ℚ
  | finite false quanta => quanta / unit
  | finite true quanta => -(quanta / unit)
  | _ => 0

/-- The number that a float stands for. -/
def value (x : Float) : ℚ :=
  (ofFloat x).toRat

theorem unit_pos_rat : (0 : ℚ) < unit :=
  Nat.cast_pos.2 unit_pos

theorem abs_value (h : ofFloat x = .finite negative quanta) : |value x| = quanta / unit := by
  have hnonneg : (0 : ℚ) ≤ quanta / unit := div_nonneg (Nat.cast_nonneg _) (Nat.cast_nonneg _)
  unfold value
  rw [h]
  cases negative with
  | false => exact abs_of_nonneg hnonneg
  | true => rw [toRat, abs_neg, abs_of_nonneg hnonneg]

/-- Finite floats of one meaning are one float. -/
theorem eq_of_ofFloat (hx : ofFloat x = .finite negative quanta)
    (hy : ofFloat y = .finite negative quanta) : x = y := by
  rw [eq_nearestQuanta .toEven hx, eq_nearestQuanta .toEven hy]

theorem exists_of_isFinite (h : isFinite x = true) :
    ∃ negative quanta, ofFloat x = .finite negative quanta := by
  unfold isFinite at h
  cases hx : ofFloat x with
  | finite negative quanta => exact ⟨negative, quanta, rfl⟩
  | infinite negative =>
      rw [hx] at h
      cases h
  | nan =>
      rw [hx] at h
      cases h

theorem isFinite_of_eq (h : ofFloat x = .finite negative quanta) : isFinite x = true := by
  unfold isFinite
  rw [h]

theorem ratio_eq_ones_iff {k : Nat} : (quanta / unit : ℚ) = k ↔ quanta = unit * k := by
  rw [div_eq_iff (ne_of_gt unit_pos_rat), mul_comm]
  exact_mod_cast Iff.rfl

theorem half_div_unit : (half / unit : ℚ) = 1 / 2 := by
  rw [div_eq_div_iff (ne_of_gt unit_pos_rat) two_ne_zero, one_mul, mul_comm]
  exact_mod_cast two_mul_half

/-- So many halves. -/
theorem value_halves {w : Nat} (h : ofFloat x = .finite false (half * w)) : value x = w / 2 := by
  unfold value
  rw [h, toRat, Nat.cast_mul, mul_div_right_comm, half_div_unit]
  ring

/-- Ones under a sign are a whole number. -/
theorem value_ones {w : Nat} (h : ofFloat x = .finite negative (unit * w)) :
    value x = ((if negative then -(w : ℤ) else w : ℤ) : ℚ) := by
  have hratio : ((unit * w : Nat) / unit : ℚ) = w := ratio_eq_ones_iff.2 rfl
  unfold value
  rw [h]
  cases negative with
  | false => exact hratio
  | true =>
      rw [toRat, hratio]
      simp only [↓reduceIte, Int.cast_neg, Int.cast_natCast]

/-- A whole number has a whole number of ones. -/
theorem exists_ones (h : ofFloat x = .finite negative quanta) (hwhole : ∃ m : ℤ, value x = m) :
    ∃ k, quanta = unit * k := by
  obtain ⟨m, hm⟩ := hwhole
  refine ⟨m.natAbs, ratio_eq_ones_iff.1 ?_⟩
  rw [← abs_value h, hm, Nat.cast_natAbs, Int.cast_abs]

-- =============================================================== whole parts

/-- A number cut to a whole one, toward zero. -/
def cut (x : ℚ) : ℤ :=
  if 0 ≤ x then ⌊x⌋ else ⌈x⌉

theorem floor_ratio (quanta : Nat) : ⌊(quanta / unit : ℚ)⌋ = (quanta / unit : Nat) := by
  rw [Int.floor_eq_iff, le_div_iff₀ unit_pos_rat, div_lt_iff₀ unit_pos_rat, mul_comm,
    mul_comm _ (unit : ℚ)]
  constructor
  · exact_mod_cast Nat.mul_div_le quanta unit
  · exact_mod_cast Nat.lt_mul_div_succ quanta unit_pos

/-- The whole part of a float is its value cut. -/
theorem truncate?_eq (h : ofFloat x = .finite negative quanta) :
    (ofFloat x).truncate? = some (cut (value x)) := by
  have hnonneg : (0 : ℚ) ≤ quanta / unit := div_nonneg (Nat.cast_nonneg _) (Nat.cast_nonneg _)
  unfold value cut
  rw [h]
  cases negative with
  | false =>
      rw [toRat, if_pos hnonneg, floor_ratio]
      rfl
  | true =>
      rw [toRat, Int.ceil_neg, floor_ratio]
      split
      · next hle =>
          -- Only a negative zero is cut the other way, and to the same number.
          have hzero : (quanta / unit : ℚ) = 0 := le_antisymm (neg_nonneg.1 hle) hnonneg
          have hnone := floor_ratio quanta
          rw [hzero, Int.floor_zero] at hnone
          rw [hzero, neg_zero, Int.floor_zero]
          show some (-((quanta / unit : Nat) : Int)) = some 0
          rw [← hnone, neg_zero]
      · rfl

/-- The whole part of a float is short. -/
theorem short_cut (h : ofFloat x = .finite negative quanta) :
    Short (unit * (cut (value x)).natAbs) ∧ (cut (value x)).natAbs ≤ greatest := by
  have hcut : (cut (value x)).natAbs = quanta / unit := by
    have heq := truncate?_eq h
    rw [h] at heq
    cases negative with
    | false =>
        rw [← Option.some.inj heq]
        exact Int.natAbs_natCast _
    | true =>
        rw [← Option.some.inj heq, Int.natAbs_neg]
        exact Int.natAbs_natCast _
  rw [hcut]
  exact ⟨(short_of_ofFloat h).ones, div_unit_le (quanta_le h)⟩

-- ============================================================ nearest wholes

/-- A whole number that no other is nearer to a number than, the one farther
from zero when two are equally near. -/
def IsNearest (x : ℚ) (n : ℤ) : Prop :=
  |x - n| ≤ 1 / 2 ∧ (|x - n| = 1 / 2 → |x| < |(n : ℚ)|)

theorem isNearest_neg {x : ℚ} {n : ℤ} : IsNearest (-x) (-n) ↔ IsNearest x n := by
  have hdistance : |-x - ((-n : ℤ) : ℚ)| = |x - n| := by
    rw [Int.cast_neg, neg_sub_neg, abs_sub_comm]
  unfold IsNearest
  rw [hdistance, abs_neg, Int.cast_neg, abs_neg]

/-- Of the whole numbers as far as one half the one from below is nearest. -/
theorem isNearest_iff_of_nonneg {x : ℚ} (hx : 0 ≤ x) {w : Nat} :
    IsNearest x w ↔ w ≤ x + 1 / 2 ∧ x < w + 1 / 2 := by
  have hw : |((w : ℤ) : ℚ)| = w := by
    rw [Int.cast_natCast, Nat.abs_cast]
  unfold IsNearest
  rw [hw, Int.cast_natCast, abs_of_nonneg hx, abs_le]
  constructor
  · rintro ⟨⟨hlow, hhigh⟩, htie⟩
    refine ⟨by linarith, lt_of_le_of_ne (by linarith) fun hmiddle => ?_⟩
    have hless := htie (by rw [hmiddle, add_sub_cancel_left, abs_of_pos one_half_pos])
    linarith
  · rintro ⟨hlow, hhigh⟩
    refine ⟨⟨by linarith, by linarith⟩, fun htie => ?_⟩
    -- Equally near means midway; the lesser of the two would be too close to zero.
    rcases abs_eq one_half_pos.le |>.1 htie with habove | hbelow
    · linarith
    · linarith

theorem isNearest_ratio {w : Nat} :
    IsNearest (quanta / unit) w ↔ w = (quanta + half) / unit := by
  have hhalf := half_div_unit
  have hnonneg : (0 : ℚ) ≤ quanta / unit := div_nonneg (Nat.cast_nonneg _) (Nat.cast_nonneg _)
  -- Both bounds are turned into natural numbers, and say that `w` is the quotient.
  have hlow : (w : ℚ) ≤ quanta / unit + 1 / 2 ↔ unit * w ≤ quanta + half := by
    rw [← hhalf, ← add_div, le_div_iff₀ unit_pos_rat, mul_comm]
    exact_mod_cast Iff.rfl
  have hhigh : (quanta / unit : ℚ) < w + 1 / 2 ↔ quanta + half < unit * (w + 1) := by
    have hmove : (quanta / unit : ℚ) < w + 1 / 2 ↔ (quanta / unit : ℚ) + 1 / 2 < w + 1 := by
      constructor <;> intro h <;> linarith
    rw [hmove, ← hhalf, ← add_div, div_lt_iff₀ unit_pos_rat, mul_comm]
    exact_mod_cast Iff.rfl
  rw [isNearest_iff_of_nonneg hnonneg, hlow, hhigh]
  constructor
  · rintro ⟨hbelow, habove⟩
    refine (Nat.div_eq_of_lt_le ?_ ?_).symm
    · rw [Nat.mul_comm]
      exact hbelow
    · rw [Nat.mul_comm]
      exact habove
  · intro h
    rw [h]
    exact ⟨Nat.mul_div_le _ _, Nat.lt_mul_div_succ _ unit_pos⟩

/-- A whole number is nearest to a finite float when it is the ones of the
magnitude and a half. -/
theorem isNearest_iff (h : ofFloat x = .finite negative quanta) {w : Nat} :
    IsNearest (value x) (if negative then -w else w) ↔ w = (quanta + half) / unit := by
  unfold value
  rw [h]
  cases negative with
  | false => exact isNearest_ratio
  | true => exact isNearest_neg.trans isNearest_ratio

/-- The numbers that a half takes too far: the float next to one half, of
either sign, and the odd whole numbers of 53 binary digits. -/
def Misrounded (x : ℚ) : Prop :=
  |x| = 1 / 2 - 1 / 2 ^ 54 ∨ ∃ k : ℕ, k % 2 = 1 ∧ 2 ^ 52 ≤ k ∧ k < 2 ^ 53 ∧ |x| = k

theorem misrounded_iff (h : ofFloat x = .finite negative quanta) :
    Misrounded (value x) ↔ Overshoots quanta := by
  have hbelow : (quanta / unit : ℚ) = 1 / 2 - 1 / 2 ^ 54 ↔ IsBelowHalf quanta := by
    have hfraction : (1 / 2 - 1 / 2 ^ 54 : ℚ) = (Nat.pow 2 53 - 1 : ℕ) / (Nat.pow 2 54 : ℕ) := by
      rw [show Nat.pow 2 53 - 1 = 9007199254740991 from rfl,
        show Nat.pow 2 54 = 18014398509481984 from rfl]
      norm_num
    have hpos : ((Nat.pow 2 54 : ℕ) : ℚ) ≠ 0 := Nat.cast_ne_zero.2 (Nat.ne_of_gt (twoPow_pos 54))
    unfold IsBelowHalf
    rw [hfraction, div_eq_div_iff (ne_of_gt unit_pos_rat) hpos, mul_comm (quanta : ℚ),
      mul_comm _ (unit : ℚ), ← Nat.cast_mul, ← Nat.cast_mul, Nat.cast_inj]
  unfold Misrounded Overshoots
  rw [abs_value h, hbelow]
  simp only [ratio_eq_ones_iff]
  exact Iff.rfl

end UnitCalc.Binary
