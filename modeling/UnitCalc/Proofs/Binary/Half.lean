/-
A half added as floats add it, and the ones of the sum.

Rounding to a whole number by adding a half and cutting is right as long as the
sum is exact, and the sum with a half is not always exact. Here it is said for
which floats the ones of the rounded sum (`halfUp`) are the whole number
nearest to them, with ties to the greater: for all but those of `Overshoots`
(`halfUp_eq_iff`).

# The regions

* Of the greatest float below one half the exact sum is no float, and it is
  rounded to one (`halfUp_of_isBelowHalf`).
* Of any other number of less than `2 ^ 52` ones the result is right
  (`halfUp_of_small`). If the number is above the ones of the sum, the sum is
  a float (`short_add_half`). If it is below them, the sum is in the lower half
  of its ones, and rounding does not carry it to the next
  (`roundQuanta_add_half_lt`). Without ones there are the floats below one
  half, and monotonicity bounds them by the last one but one
  (`roundQuanta_lt_unit`).
* From there to `2 ^ 53` ones every float is whole, and the sum is midway
  between two floats: the even neighbour is taken (`halfUp_of_whole`), which
  for odd numbers is one too many.
* From `2 ^ 53` ones on the half is lost (`halfUp_of_large`).

Once rounded a number stays (`halfUp_halfUp`): the even neighbour is even, and
numbers that are short of `2 ^ 52` ones come to no odd number beyond.
-/
import UnitCalc.Proofs.Binary.Rounded

namespace UnitCalc.Binary

variable {quanta : Nat}

/-- The quanta of one half. -/
def half : Nat := Nat.pow 2 1073

theorem exists_half : ∃ digits : Nat, digits = 1073 ∧ half = Nat.pow 2 digits := by
  refine ⟨_, rfl, ?_⟩
  unfold half
  generalize 1073 = a
  rfl

theorem two_mul_half : 2 * half = unit := by
  obtain ⟨digits, hdigits, hhalf⟩ := exists_half
  obtain ⟨digits', hdigits', hunit⟩ := exists_unit
  rw [hhalf, hunit, show digits' = digits + 1 by omega, twoPow_add, Nat.mul_comm]

theorem half_lt_unit : half < unit := by
  have hhalf := two_mul_half
  have hpos := unit_pos
  omega

/-- The ones of the float nearest to a number and a half. -/
def halfUp (quanta : Nat) : Nat :=
  roundQuanta .toEven (quanta + half) 1 / unit

theorem short_ones_halfUp (quanta : Nat) : Short (unit * halfUp quanta) :=
  (short_roundQuanta .toEven (quanta + half) Nat.one_pos).ones

/-- The sum with a half stays in the range. -/
theorem roundQuanta_add_half_le (h : quanta ≤ unit * greatest) :
    roundQuanta .toEven (quanta + half) 1 ≤ unit * greatest := by
  obtain ⟨digits, hdigits, hunit⟩ := exists_unit
  have hgreatest : unit * greatest = Nat.pow 2 (digits + 971) * (Nat.pow 2 53 - 1) := by
    rw [unit_mul_greatest, hdigits]
  generalize htop : digits + 971 = top at hgreatest
  have hfit : Nat.pow 2 top * (Nat.pow 2 53 - 1) < Nat.pow 2 (top + 53) := by
    rw [twoPow_add]
    exact Nat.mul_lt_mul_of_pos_left (by decide) (twoPow_pos top)
  have hscale : AtScale (unit * greatest) 1 top := by
    rw [hgreatest]
    refine ⟨by rwa [Nat.mul_one], .inr ?_⟩
    rw [Nat.mul_one, twoPow_add]
    exact Nat.mul_le_mul_left _ (by decide)
  have hshort : Short (unit * greatest) := by
    rw [hgreatest]
    exact ⟨top, Nat.dvd_mul_right _ _, Nat.le_of_lt hfit⟩
  have hless : 2 * half < Nat.pow 2 top := by
    rw [two_mul_half, hunit]
    exact (Nat.pow_lt_pow_iff_right (by decide)).2 (by omega)
  -- The sum is no more than that of the greatest float, which loses the half.
  calc roundQuanta .toEven (quanta + half) 1
    _ ≤ roundQuanta .toEven (unit * greatest + half) 1 := by
      refine roundQuanta_mono .toEven Nat.one_pos Nat.one_pos ?_
      rw [Nat.mul_one, Nat.mul_one]
      exact Nat.add_le_add_right h half
    _ = unit * greatest := roundQuanta_absorb .toEven hshort hscale hless

/-- A scale is no coarser than a power of two that is above the number. -/
theorem AtScale.shift_le {n shift top : Nat} (h : AtScale n 1 shift)
    (hlt : n < Nat.pow 2 (top + 53)) : shift ≤ top := by
  rcases h.2 with hzero | hlow
  · omega
  · rw [Nat.mul_one] at hlow
    have hexponents := (Nat.pow_lt_pow_iff_right (by decide)).1 (Nat.lt_of_le_of_lt hlow hlt)
    omega

/-- Of large numbers the half is lost. -/
theorem halfUp_of_large (h : Short quanta) (hlarge : unit * Nat.pow 2 53 ≤ quanta) :
    halfUp quanta = quanta / unit := by
  obtain ⟨digits, -, hunit⟩ := exists_unit
  obtain ⟨shift, hscale⟩ := exists_atScale quanta Nat.one_pos
  -- The least digit stands for two or more, so a half is less than half of it.
  have hshift : digits < shift := by
    have hlt := Nat.lt_of_le_of_lt hlarge hscale.1
    rw [Nat.mul_one, hunit, ← twoPow_add] at hlt
    have hexponents := (Nat.pow_lt_pow_iff_right (by decide)).1 hlt
    omega
  have hless : 2 * half < Nat.pow 2 shift := by
    rw [two_mul_half, hunit]
    exact (Nat.pow_lt_pow_iff_right (by decide)).2 hshift
  unfold halfUp
  rw [roundQuanta_absorb .toEven h hscale hless]

/-- Midway between whole numbers the even one is taken. -/
theorem halfUp_of_whole {k : Nat} (hlow : Nat.pow 2 52 ≤ k) (hhigh : k < Nat.pow 2 53) :
    halfUp (unit * k) = if k % 2 = 0 then k else k + 1 := by
  obtain ⟨digits, -, hunit⟩ := exists_unit
  have hhalf := two_mul_half
  have hless := half_lt_unit
  have hscale : AtScale (unit * k + half) 1 digits := by
    constructor
    · have hnext : unit * (k + 1) ≤ Nat.pow 2 (digits + 53) := by
        rw [twoPow_add, ← hunit]
        exact Nat.mul_le_mul_left unit hhigh
      rw [Nat.mul_succ] at hnext
      omega
    · right
      rw [Nat.mul_one, twoPow_add, ← hunit]
      exact Nat.le_trans (Nat.mul_le_mul_left unit hlow) (Nat.le_add_right _ _)
  obtain ⟨hquotient, hrest⟩ := div_mod_parts k hless
  unfold halfUp
  rw [roundQuanta_eq hscale Nat.one_pos, Nat.mul_one, ← hunit, Nat.mul_div_cancel_left _ unit_pos]
  unfold roundDiv
  dsimp only
  rw [hrest, hquotient, hhalf, if_neg (Nat.lt_irrefl unit), if_neg (Nat.lt_irrefl unit)]
  simp only [true_and]

/-- The greatest float below one half. -/
def IsBelowHalf (quanta : Nat) : Prop :=
  Nat.pow 2 54 * quanta = unit * (Nat.pow 2 53 - 1)

/-- One half and the float below it, in digits of half the least one that
numbers between one half and one have. -/
theorem exists_gap : ∃ digits : Nat, unit = Nat.pow 2 digits * Nat.pow 2 54
    ∧ half = Nat.pow 2 digits * Nat.pow 2 53
    ∧ ∀ quanta, IsBelowHalf quanta ↔ quanta = Nat.pow 2 digits * (Nat.pow 2 53 - 1) := by
  obtain ⟨digits, hdigits, hunit⟩ := exists_unit
  obtain ⟨digits', hdigits', hhalf⟩ := exists_half
  have hunit' : unit = Nat.pow 2 (digits - 54) * Nat.pow 2 54 := by
    rw [hunit, ← twoPow_add, Nat.sub_add_cancel (by omega)]
  refine ⟨digits - 54, hunit', ?_, fun quanta => ?_⟩
  · rw [hhalf, ← twoPow_add, show digits - 54 + 53 = digits' by omega]
  · unfold IsBelowHalf
    rw [hunit', Nat.mul_comm (Nat.pow 2 (digits - 54)), Nat.mul_assoc]
    exact Nat.mul_right_inj (Nat.ne_of_gt (twoPow_pos 54))

/-- Just below one half the half takes the number to one. -/
theorem halfUp_of_isBelowHalf (h : IsBelowHalf quanta) : halfUp quanta = 1 := by
  obtain ⟨digits, hunit, hhalf, hgap⟩ := exists_gap
  have hpos := twoPow_pos digits
  have hsum : quanta + half = Nat.pow 2 digits * (Nat.pow 2 54 - 1) := by
    rw [(hgap quanta).1 h, hhalf, ← Nat.mul_add]
  have hscale : AtScale (quanta + half) 1 (digits + 1) := by
    rw [hsum]
    constructor
    · rw [Nat.mul_one, show digits + 1 + 53 = digits + 54 by omega, twoPow_add]
      exact Nat.mul_lt_mul_of_pos_left (by decide) hpos
    · right
      rw [Nat.mul_one, show digits + 1 + 52 = digits + 53 by omega, twoPow_add]
      exact Nat.mul_le_mul_left _ (by decide)
  -- An odd number of 54 digits: it is midway, and the even neighbour is the power of two.
  have hround : roundDiv .toEven (Nat.pow 2 54 - 1) 2 = Nat.pow 2 53 := by decide
  unfold halfUp
  rw [roundQuanta_eq hscale Nat.one_pos, Nat.mul_one, hsum, twoPow_add]
  show Nat.pow 2 digits * 2 * roundDiv .toEven (Nat.pow 2 digits * _) (Nat.pow 2 digits * 2) / unit
    = 1
  rw [roundDiv_mul .toEven hpos, hround, Nat.mul_assoc]
  show Nat.pow 2 digits * Nat.pow 2 54 / unit = 1
  rw [← hunit, Nat.div_self unit_pos]

/-- Any other float below one half stays below one when the half is added. -/
theorem roundQuanta_lt_unit (h : Short quanta) (hlt : quanta < half) (hgap : ¬ IsBelowHalf quanta) :
    roundQuanta .toEven (quanta + half) 1 < unit := by
  obtain ⟨digits, hunit, hhalf, hbelow⟩ := exists_gap
  have hpos := twoPow_pos digits
  have hquanta : quanta ≤ Nat.pow 2 digits * (Nat.pow 2 53 - 2) := by
    rcases Nat.lt_or_ge quanta (Nat.pow 2 (digits + 52)) with hless | hmore
    · rw [twoPow_add] at hless
      exact Nat.le_trans (Nat.le_of_lt hless) (Nat.mul_le_mul_left _ (by decide))
    · -- Between a quarter and a half it is a multiple of the digit.
      have hscale : AtScale quanta 1 digits := by
        refine ⟨?_, .inr ?_⟩
        · rw [Nat.mul_one, twoPow_add, ← hhalf]
          exact hlt
        · rw [Nat.mul_one]
          exact hmore
      obtain ⟨k, rfl⟩ := h.dvd hscale
      rw [hhalf] at hlt
      have hk := Nat.lt_of_mul_lt_mul_left hlt
      have hne : k ≠ Nat.pow 2 53 - 1 := by
        rintro rfl
        exact hgap ((hbelow _).2 rfl)
      exact Nat.mul_le_mul_left _ (by omega)
  have hshort : Short (Nat.pow 2 digits * (Nat.pow 2 54 - 2)) := by
    refine ⟨digits + 1, ?_, ?_⟩
    · rw [twoPow_add, show Nat.pow 2 54 - 2 = Nat.pow 2 1 * (Nat.pow 2 53 - 1) by decide,
        ← Nat.mul_assoc]
      exact Nat.dvd_mul_right _ _
    · rw [show digits + 1 + 53 = digits + 54 by omega, twoPow_add]
      exact Nat.mul_le_mul_left _ (by decide)
  calc roundQuanta .toEven (quanta + half) 1
    _ ≤ roundQuanta .toEven (Nat.pow 2 digits * (Nat.pow 2 54 - 2)) 1 := by
      refine roundQuanta_mono .toEven Nat.one_pos Nat.one_pos ?_
      rw [Nat.mul_one, Nat.mul_one, hhalf,
        show Nat.pow 2 54 - 2 = Nat.pow 2 53 - 2 + Nat.pow 2 53 by decide, Nat.mul_add]
      exact Nat.add_le_add_right hquanta _
    _ = Nat.pow 2 digits * (Nat.pow 2 54 - 2) := roundQuanta_of_short .toEven hshort
    _ < unit := by
      rw [hunit]
      exact Nat.mul_lt_mul_of_pos_left (by decide) hpos

/-- A power of two up to a number is up to the ones of it. -/
theorem twoPow_le_ones {n power ones : Nat} (hpower : Nat.pow 2 power ≤ n)
    (hlt : n < unit * (ones + 1)) (hones : 0 < ones) : Nat.pow 2 power ≤ unit * ones := by
  obtain ⟨digits, -, hunit⟩ := exists_unit
  rcases Nat.le_total power digits with hfine | hcoarse
  · calc Nat.pow 2 power
      _ ≤ unit := by
        rw [hunit]
        exact twoPow_le hfine
      _ ≤ unit * ones := Nat.le_mul_of_pos_right unit hones
  · have hsplit : Nat.pow 2 power = unit * Nat.pow 2 (power - digits) := by
      rw [hunit, ← twoPow_add, Nat.add_sub_cancel' hcoarse]
    rw [hsplit] at hpower ⊢
    have hless := Nat.lt_of_mul_lt_mul_left (Nat.lt_of_le_of_lt hpower hlt)
    exact Nat.mul_le_mul_left unit (Nat.le_of_lt_succ hless)

/-- A number that is above the ones of its sum with a half is as coarse as
the sum, and so the sum is a float. -/
theorem short_add_half (h : Short quanta) {ones : Nat} (hones : 0 < ones)
    (hfit : ones < Nat.pow 2 52) (hlow : unit * ones ≤ quanta)
    (hhigh : quanta + half < unit * (ones + 1)) : Short (quanta + half) := by
  obtain ⟨digits, hdigits, hhalf⟩ := exists_half
  obtain ⟨shift, hscale⟩ := exists_atScale (quanta + half) Nat.one_pos
  have hsum : quanta + half < Nat.pow 2 (digits + 53) :=
    calc quanta + half
      _ < unit * (ones + 1) := hhigh
      _ ≤ unit * Nat.pow 2 52 := Nat.mul_le_mul_left unit hfit
      _ = Nat.pow 2 (digits + 53) := by
        rw [twoPow_add, ← hhalf, ← two_mul_half, Nat.mul_right_comm, Nat.mul_comm _ half]
  have hshift : shift ≤ digits := hscale.shift_le hsum
  -- The sum is at the scale of the number itself: a power of two up to the sum is up to its ones,
  -- and so up to the number.
  have hscale' : AtScale quanta 1 shift := by
    refine ⟨Nat.lt_of_le_of_lt (Nat.le_add_right _ _) hscale.1, hscale.2.imp_right fun hpower => ?_⟩
    rw [Nat.mul_one] at hpower ⊢
    exact Nat.le_trans (twoPow_le_ones hpower hhigh hones) hlow
  have hdvd : Nat.pow 2 shift ∣ half := by
    rw [hhalf]
    exact twoPow_dvd hshift
  have hle : quanta + half ≤ Nat.pow 2 (shift + 53) := by
    have hlt := hscale.1
    rw [Nat.mul_one] at hlt
    exact Nat.le_of_lt hlt
  exact ⟨shift, Nat.dvd_add (h.dvd hscale') hdvd, hle⟩

/-- Below a whole number the sum is rounded to something below it. -/
theorem roundQuanta_add_half_lt (h : Short quanta) (hlt : quanta < unit * Nat.pow 2 52)
    (hgap : ¬ IsBelowHalf quanta) {ones : Nat} (hfit : ones ≤ Nat.pow 2 52)
    (hhigh : quanta + half < unit * (ones + 1)) :
    roundQuanta .toEven (quanta + half) 1 < unit * (ones + 1) := by
  have hhalf := two_mul_half
  rcases Nat.eq_zero_or_pos ones with rfl | hones
  · rw [Nat.zero_add, Nat.mul_one] at hhigh ⊢
    rw [← hhalf, Nat.two_mul] at hhigh
    exact roundQuanta_lt_unit h (Nat.lt_of_add_lt_add_right hhigh) hgap
  · rcases Nat.lt_or_ge quanta (unit * ones) with hless | hmore
    · -- The sum is below the middle of its ones, and rounding is off by a half at most.
      obtain ⟨digits, -, hunit⟩ := exists_unit
      obtain ⟨shift, hscale⟩ := exists_atScale (quanta + half) Nat.one_pos
      have hsum : quanta + half < Nat.pow 2 (digits + 53) := by
        rw [twoPow_add, ← hunit]
        refine Nat.lt_of_lt_of_le hhigh (Nat.mul_le_mul_left unit ?_)
        exact Nat.le_trans (Nat.succ_le_succ hfit) (by decide)
      have hstep : Nat.pow 2 shift ≤ unit := by
        rw [hunit]
        exact twoPow_le (hscale.shift_le hsum)
      have hnear := roundQuanta_near .toEven hscale
      rw [Nat.mul_succ]
      omega
    · have hsmall : ones < Nat.pow 2 52 :=
        Nat.lt_of_mul_lt_mul_left (Nat.lt_of_le_of_lt hmore hlt)
      rw [roundQuanta_of_short .toEven (short_add_half h hones hsmall hmore hhigh)]
      exact hhigh

/-- Of small numbers the half takes those to the next whole number that it
should. -/
theorem halfUp_of_small (h : Short quanta) (hlt : quanta < unit * Nat.pow 2 52)
    (hgap : ¬ IsBelowHalf quanta) : halfUp quanta = (quanta + half) / unit := by
  have hless := half_lt_unit
  have hlow : unit * ((quanta + half) / unit) ≤ quanta + half := Nat.mul_div_le _ unit
  have hhigh : quanta + half < unit * ((quanta + half) / unit + 1) :=
    Nat.lt_mul_div_succ _ unit_pos
  generalize (quanta + half) / unit = ones at *
  have hfit : ones ≤ Nat.pow 2 52 := by
    generalize Nat.pow 2 52 = bound at *
    have hsum : unit * ones < unit * (bound + 1) := by
      rw [Nat.mul_succ]
      omega
    exact Nat.le_of_lt_succ (Nat.lt_of_mul_lt_mul_left hsum)
  -- From below: the ones of the sum are a float, and order is kept.
  have hbelow : unit * ones ≤ roundQuanta .toEven (quanta + half) 1 :=
    calc unit * ones
      _ = roundQuanta .toEven (unit * ones) 1 :=
        (roundQuanta_of_short .toEven (short_ones (Nat.le_trans hfit (twoPow_le (by decide))))).symm
      _ ≤ roundQuanta .toEven (quanta + half) 1 :=
        roundQuanta_mono .toEven Nat.one_pos Nat.one_pos (Nat.mul_le_mul_right 1 hlow)
  unfold halfUp
  refine Nat.div_eq_of_lt_le ?_ ?_
  · rw [Nat.mul_comm]
    exact hbelow
  · rw [Nat.mul_comm]
    exact roundQuanta_add_half_lt h hlt hgap hfit hhigh

-- =========================================================== the exceptions

/-- The numbers whose ones a half takes too far: the greatest float below one
half, and the odd whole numbers whose neighbours are two apart when a half is
added. -/
def Overshoots (quanta : Nat) : Prop :=
  IsBelowHalf quanta
    ∨ ∃ k, k % 2 = 1 ∧ Nat.pow 2 52 ≤ k ∧ k < Nat.pow 2 53 ∧ quanta = unit * k

theorem ones_add_half (k : Nat) : (unit * k + half) / unit = k :=
  (div_mod_parts k half_lt_unit).1

theorem not_isBelowHalf_ones (k : Nat) : ¬ IsBelowHalf (unit * k) := by
  intro h
  unfold IsBelowHalf at h
  rw [Nat.mul_left_comm, Nat.mul_right_inj (Nat.ne_of_gt unit_pos)] at h
  have hdvd : Nat.pow 2 54 ∣ Nat.pow 2 53 - 1 := ⟨k, h.symm⟩
  exact absurd hdvd (by decide)

/-- From `2 ^ 52` ones on there are no fractions. -/
theorem Short.whole (h : Short quanta) (hlarge : unit * Nat.pow 2 52 ≤ quanta) :
    ∃ k, Nat.pow 2 52 ≤ k ∧ quanta = unit * k := by
  obtain ⟨digits, -, hunit⟩ := exists_unit
  obtain ⟨shift, hscale⟩ := exists_atScale quanta Nat.one_pos
  have hshift : digits ≤ shift := by
    have hlt := Nat.lt_of_le_of_lt hlarge hscale.1
    rw [Nat.mul_one, hunit, ← twoPow_add] at hlt
    have hexponents := (Nat.pow_lt_pow_iff_right (by decide)).1 hlt
    omega
  have hdvd : unit ∣ quanta := by
    rw [hunit]
    exact Nat.dvd_trans (twoPow_dvd hshift) (h.dvd hscale)
  obtain ⟨k, hk⟩ := hdvd
  rw [hk] at hlarge
  exact ⟨k, Nat.le_of_mul_le_mul_left hlarge unit_pos, hk⟩

/-- A whole number is kept, unless it is one of the odd ones. -/
theorem halfUp_ones_iff {k : Nat} (h : Short (unit * k)) :
    halfUp (unit * k) = k ↔ ¬ Overshoots (unit * k) := by
  have hodd : Overshoots (unit * k) ↔ k % 2 = 1 ∧ Nat.pow 2 52 ≤ k ∧ k < Nat.pow 2 53 := by
    unfold Overshoots
    rw [or_iff_right (not_isBelowHalf_ones k)]
    constructor
    · rintro ⟨k', hodd, hlow, hhigh, heq⟩
      obtain rfl := (Nat.mul_right_inj (Nat.ne_of_gt unit_pos)).1 heq
      exact ⟨hodd, hlow, hhigh⟩
    · rintro ⟨hodd, hlow, hhigh⟩
      exact ⟨k, hodd, hlow, hhigh, rfl⟩
  rw [hodd]
  -- The three regions, of which only the middle one has exceptions.
  rcases Nat.lt_or_ge k (Nat.pow 2 52) with hsmall | hlow
  · have hlt : unit * k < unit * Nat.pow 2 52 := Nat.mul_lt_mul_of_pos_left hsmall unit_pos
    rw [halfUp_of_small h hlt (not_isBelowHalf_ones k), ones_add_half]
    exact iff_of_true rfl fun hmiddle => Nat.not_le_of_lt hsmall hmiddle.2.1
  · rcases Nat.lt_or_ge k (Nat.pow 2 53) with hhigh | hlarge
    · rw [halfUp_of_whole hlow hhigh]
      split
      · next heven => exact iff_of_true rfl fun hmiddle => by omega
      · next hodd' =>
          refine iff_of_false (Nat.succ_ne_self k) fun hnot => hnot ⟨?_, hlow, hhigh⟩
          omega
    · rw [halfUp_of_large h (Nat.mul_le_mul_left unit hlarge), Nat.mul_div_cancel_left k unit_pos]
      exact iff_of_true rfl fun hmiddle => Nat.not_le_of_lt hmiddle.2.2 hlarge

/-- The half takes a number to the whole number nearest, and from the middle
to the greater, with these exceptions. -/
theorem halfUp_eq_iff (h : Short quanta) :
    halfUp quanta = (quanta + half) / unit ↔ ¬ Overshoots quanta := by
  rcases Nat.lt_or_ge quanta (unit * Nat.pow 2 52) with hsmall | hlarge
  · have hgap : Overshoots quanta ↔ IsBelowHalf quanta := by
      refine or_iff_left ?_
      rintro ⟨k, -, hlow, -, hk⟩
      rw [hk] at hsmall
      exact Nat.not_le_of_lt hsmall (Nat.mul_le_mul_left unit hlow)
    rw [hgap]
    by_cases hbelow : IsBelowHalf quanta
    · refine iff_of_false ?_ (not_not_intro hbelow)
      obtain ⟨digits, hunit, hhalf, hgap⟩ := exists_gap
      have hlt : quanta + half < unit := by
        rw [(hgap quanta).1 hbelow, hhalf, hunit, ← Nat.mul_add]
        exact Nat.mul_lt_mul_of_pos_left (by decide) (twoPow_pos digits)
      rw [halfUp_of_isBelowHalf hbelow, Nat.div_eq_of_lt hlt]
      exact Nat.one_ne_zero
    · exact iff_of_true (halfUp_of_small h hsmall hbelow) hbelow
  · obtain ⟨k, -, hk⟩ := h.whole hlarge
    rw [hk] at h ⊢
    rw [ones_add_half]
    exact halfUp_ones_iff h

/-- Once taken to a whole number, a number stays. -/
theorem halfUp_halfUp (h : Short quanta) : halfUp (unit * halfUp quanta) = halfUp quanta := by
  rw [halfUp_ones_iff (short_ones_halfUp quanta)]
  rintro (hbelow | ⟨k, hodd, hlow, hhigh, heq⟩)
  · exact not_isBelowHalf_ones _ hbelow
  · rw [Nat.mul_right_inj (Nat.ne_of_gt unit_pos)] at heq
    rcases Nat.lt_or_ge quanta (unit * Nat.pow 2 52) with hsmall | hlarge
    · -- Below that no more than `2 ^ 52` can come out, which is even.
      have hle : halfUp quanta ≤ Nat.pow 2 52 := by
        by_cases hbelow : IsBelowHalf quanta
        · rw [halfUp_of_isBelowHalf hbelow]
          exact twoPow_pos 52
        · rw [halfUp_of_small h hsmall hbelow]
          have hmost : (quanta + half) / unit ≤ (unit * Nat.pow 2 52 + half) / unit :=
            Nat.div_le_div_right (Nat.add_le_add_right (Nat.le_of_lt hsmall) half)
          rwa [ones_add_half] at hmost
      have heven : Nat.pow 2 52 % 2 = 0 := rfl
      obtain rfl : k = Nat.pow 2 52 := Nat.le_antisymm (heq ▸ hle) hlow
      omega
    · -- From there on the number is whole, and an odd one has been made even.
      obtain ⟨k', hlow', hk'⟩ := h.whole hlarge
      rw [hk'] at heq h
      rcases Nat.lt_or_ge k' (Nat.pow 2 53) with hhigh' | hlarge'
      · rw [halfUp_of_whole hlow' hhigh'] at heq
        split at heq <;> omega
      · rw [halfUp_of_large h (Nat.mul_le_mul_left unit hlarge'),
          Nat.mul_div_cancel_left k' unit_pos] at heq
        omega

end UnitCalc.Binary
