/-
Rounding as a function of quanta.

`Binary.roundQuanta` answers the quanta of the float nearest to a ratio
(`ofFloat_nearestQuanta`). The definition speaks of a logarithm. What is used
of it is `AtScale`: that 53 binary digits reach down to a certain power of
two. A ratio has exactly one scale (`AtScale.unique`), and a greater ratio has
no finer one (`AtScale.le`), so results about two ratios compare their scales
instead of their logarithms.

# Order

Rounding keeps order (`roundQuanta_mono`). At one scale it is the rounding of
quotients that does (`roundDiv_mono`). At two scales there is a power of two
between them, which is between the two roundings as well
(`AtScale.roundDiv_bounds`). That the rounding depends on the ratio alone
follows from this on both sides (`roundQuanta_congr`).

# Short numbers

What floats stand for has no more than 53 digits with zeros behind them
(`Short`, `short_of_ofFloat`), and such numbers are kept
(`roundQuanta_of_short`). So what lies between two floats is rounded to
something between them. All that is said further on about sums with a half,
products with a fraction and quotients comes from these two facts, and from
`roundQuanta_absorb`: less than half of the least digit is lost.
-/
import UnitCalc.Proofs.Binary.Nearest

namespace UnitCalc

theorem twoPow_le {a b : Nat} (h : a ≤ b) : Nat.pow 2 a ≤ Nat.pow 2 b :=
  Nat.pow_le_pow_right (by decide) h

theorem twoPow_dvd {a b : Nat} (h : a ≤ b) : Nat.pow 2 a ∣ Nat.pow 2 b :=
  Nat.pow_dvd_pow 2 h

/-- A ratio goes to the whole number below it or to the one above, whichever
is no further. -/
theorem roundDiv_cases (tie : Tie) (n d : Nat) :
    (roundDiv tie n d = n / d ∧ 2 * (n % d) ≤ d)
      ∨ (roundDiv tie n d = n / d + 1 ∧ d ≤ 2 * (n % d)) := by
  unfold roundDiv
  dsimp only
  split
  · exact .inl ⟨rfl, by omega⟩
  · split
    · exact .inr ⟨rfl, by omega⟩
    · split
      · exact .inl ⟨rfl, by omega⟩
      · exact .inr ⟨rfl, by omega⟩

/-- From a whole number on the nearest one is no less. -/
theorem le_roundDiv (tie : Tie) {n d bound : Nat} (hd : 0 < d) (h : bound * d ≤ n) :
    bound ≤ roundDiv tie n d := by
  have hquotient : bound ≤ n / d := (Nat.le_div_iff_mul_le hd).2 h
  rcases roundDiv_cases tie n d with ⟨heq, -⟩ | ⟨heq, -⟩ <;> omega

/-- Over one divisor rounding keeps order. -/
theorem roundDiv_le_roundDiv (tie : Tie) {n n' d : Nat} (hd : 0 < d) (h : n ≤ n') :
    roundDiv tie n d ≤ roundDiv tie n' d := by
  have hquotients : n / d ≤ n' / d := Nat.div_le_div_right h
  have hbelow : n' / d ≤ roundDiv tie n' d := le_roundDiv tie hd (Nat.div_mul_le_self n' d)
  rcases roundDiv_cases tie n d with ⟨heq, -⟩ | ⟨heq, hhalf⟩
  · omega
  · rcases Nat.lt_or_eq_of_le hquotients with hlt | hquotient
    · omega
    · -- With one quotient the greater number is past the half, unless it is the same.
      rcases Nat.lt_or_eq_of_le h with hless | rfl
      · have hparts := Nat.div_add_mod n d
        have hparts' := Nat.div_add_mod n' d
        rw [← hquotient] at hparts'
        rcases roundDiv_cases tie n' d with ⟨-, hhalf'⟩ | ⟨heq', -⟩
        · omega
        · omega
      · exact Nat.le_refl _

/-- Rounding keeps the order of ratios. -/
theorem roundDiv_mono (tie : Tie) {n d n' d' : Nat} (hd : 0 < d) (hd' : 0 < d')
    (h : n * d' ≤ n' * d) : roundDiv tie n d ≤ roundDiv tie n' d' :=
  calc roundDiv tie n d
    _ = roundDiv tie (d' * n) (d' * d) := (roundDiv_mul tie hd' n d).symm
    _ ≤ roundDiv tie (d * n') (d' * d) := by
      refine roundDiv_le_roundDiv tie (Nat.mul_pos hd' hd) ?_
      rwa [Nat.mul_comm d' n, Nat.mul_comm d n']
    _ = roundDiv tie (d * n') (d * d') := by rw [Nat.mul_comm d' d]
    _ = roundDiv tie n' d' := roundDiv_mul tie hd n' d'

namespace Binary

open Float.Model

variable {tie : Tie} {negative : Bool} {n d n' d' shift quanta : Nat} {x : Float}

/-- One is a power of two; with a name for the exponent nothing evaluates
it. -/
theorem exists_unit : ∃ digits : Nat, digits = 1074 ∧ unit = Nat.pow 2 digits := by
  refine ⟨_, rfl, ?_⟩
  unfold unit
  generalize 1074 = a
  rfl

-- =================================================================== scales

/-- The least of 53 binary digits of a ratio stands for `2 ^ shift`, or it
stands for one and there are no more than 53. -/
def AtScale (n d shift : Nat) : Prop :=
  n < Nat.pow 2 (shift + 53) * d ∧ (shift = 0 ∨ Nat.pow 2 (shift + 52) * d ≤ n)

theorem atScale_log2 (n : Nat) (hd : 0 < d) : AtScale n d (Nat.log2 (n / d) - 52) := by
  constructor
  · refine (Nat.div_lt_iff_lt_mul hd).1 (Nat.lt_of_lt_of_le Nat.lt_log2_self (twoPow_le ?_))
    omega
  · by_cases hshift : Nat.log2 (n / d) - 52 = 0
    · exact .inl hshift
    · refine .inr ((Nat.le_div_iff_mul_le hd).1 ?_)
      have hexponent : Nat.log2 (n / d) - 52 + 52 = Nat.log2 (n / d) := by omega
      have hpositive : n / d ≠ 0 := by
        intro hzero
        rw [hzero, Nat.log2_zero] at hshift
        exact hshift rfl
      rw [hexponent]
      exact Nat.log2_self_le hpositive

theorem exists_atScale (n : Nat) (hd : 0 < d) : ∃ shift, AtScale n d shift :=
  ⟨_, atScale_log2 n hd⟩

/-- A greater ratio has no lesser scale. -/
theorem AtScale.le {shift' : Nat} (h : AtScale n d shift) (h' : AtScale n' d' shift')
    (hd : 0 < d) (hle : n * d' ≤ n' * d) : shift ≤ shift' := by
  rcases h.2 with rfl | hlow
  · exact Nat.zero_le _
  · have hd' : 0 < d' := by
      refine Nat.pos_of_ne_zero fun hzero => ?_
      have hhigh := h'.1
      rw [hzero, Nat.mul_zero] at hhigh
      omega
    have hchain : Nat.pow 2 (shift + 52) * (d * d') < Nat.pow 2 (shift' + 53) * (d * d') :=
      calc Nat.pow 2 (shift + 52) * (d * d')
        _ = Nat.pow 2 (shift + 52) * d * d' := (Nat.mul_assoc ..).symm
        _ ≤ n * d' := Nat.mul_le_mul_right d' hlow
        _ ≤ n' * d := hle
        _ < Nat.pow 2 (shift' + 53) * d' * d := Nat.mul_lt_mul_of_pos_right h'.1 hd
        _ = Nat.pow 2 (shift' + 53) * (d * d') := by rw [Nat.mul_assoc, Nat.mul_comm d' d]
    have hpow := Nat.lt_of_mul_lt_mul_right hchain
    have hexponents := (Nat.pow_lt_pow_iff_right (by decide)).1 hpow
    omega

/-- A ratio has one scale. -/
theorem AtScale.unique {shift' : Nat} (h : AtScale n d shift) (h' : AtScale n d shift')
    (hd : 0 < d) : shift = shift' :=
  Nat.le_antisymm (h.le h' hd (Nat.le_refl _)) (h'.le h hd (Nat.le_refl _))

/-- At its scale a ratio is rounded to 53 binary digits, or to the power of
two behind them. -/
theorem AtScale.roundDiv_bounds (h : AtScale n d shift) (hd : 0 < d) (tie : Tie) :
    roundDiv tie n (Nat.pow 2 shift * d) ≤ Nat.pow 2 53
      ∧ (shift = 0 ∨ Nat.pow 2 52 ≤ roundDiv tie n (Nat.pow 2 shift * d)) := by
  have hscale : 0 < Nat.pow 2 shift * d := Nat.mul_pos (twoPow_pos shift) hd
  constructor
  · refine roundDiv_le tie hscale ?_
    rw [← Nat.mul_assoc, ← twoPow_add, Nat.add_comm 53]
    exact Nat.le_of_lt h.1
  · refine h.2.imp_right fun hlow => le_roundDiv tie hscale ?_
    rw [← Nat.mul_assoc, ← twoPow_add, Nat.add_comm 52]
    exact hlow

-- ================================================================= rounding

/-- The quanta of the float nearest to `n / d` quanta, as if floats had no
end. -/
def roundQuanta (tie : Tie) (n d : Nat) : Nat :=
  let shift := Nat.log2 (n / d) - 52
  Nat.pow 2 shift * roundDiv tie n (Nat.pow 2 shift * d)

theorem roundQuanta_eq (h : AtScale n d shift) (hd : 0 < d) (tie : Tie) :
    roundQuanta tie n d = Nat.pow 2 shift * roundDiv tie n (Nat.pow 2 shift * d) := by
  rw [h.unique (atScale_log2 n hd) hd]
  rfl

/-- Rounding keeps order. -/
theorem roundQuanta_mono (tie : Tie) (hd : 0 < d) (hd' : 0 < d') (h : n * d' ≤ n' * d) :
    roundQuanta tie n d ≤ roundQuanta tie n' d' := by
  obtain ⟨shift, hscale⟩ := exists_atScale n hd
  obtain ⟨shift', hscale'⟩ := exists_atScale n' hd'
  rw [roundQuanta_eq hscale hd, roundQuanta_eq hscale' hd']
  have hbound := (hscale.roundDiv_bounds hd tie).1
  have hbound' := (hscale'.roundDiv_bounds hd' tie).2
  rcases Nat.lt_or_eq_of_le (hscale.le hscale' hd h) with hlt | rfl
  · -- The power of two between the two scales lies between the two roundings.
    have hlow : Nat.pow 2 52 ≤ roundDiv tie n' (Nat.pow 2 shift' * d') := by
      rcases hbound' with hzero | hlow
      · omega
      · exact hlow
    calc Nat.pow 2 shift * roundDiv tie n (Nat.pow 2 shift * d)
      _ ≤ Nat.pow 2 shift * Nat.pow 2 53 := Nat.mul_le_mul_left _ hbound
      _ = Nat.pow 2 (shift + 53) := (twoPow_add shift 53).symm
      _ ≤ Nat.pow 2 (shift' + 52) := twoPow_le (by omega)
      _ = Nat.pow 2 shift' * Nat.pow 2 52 := twoPow_add shift' 52
      _ ≤ Nat.pow 2 shift' * roundDiv tie n' (Nat.pow 2 shift' * d') :=
        Nat.mul_le_mul_left _ hlow
  · -- At one scale both are the same multiple of roundings over one divisor.
    refine Nat.mul_le_mul_left _ (roundDiv_mono tie (Nat.mul_pos (twoPow_pos _) hd)
      (Nat.mul_pos (twoPow_pos _) hd') ?_)
    rw [Nat.mul_left_comm n, Nat.mul_left_comm n']
    exact Nat.mul_le_mul_left _ h

/-- The rounding depends on the ratio alone. -/
theorem roundQuanta_congr (tie : Tie) (hd : 0 < d) (hd' : 0 < d') (h : n * d' = n' * d) :
    roundQuanta tie n d = roundQuanta tie n' d' :=
  Nat.le_antisymm (roundQuanta_mono tie hd hd' (Nat.le_of_eq h))
    (roundQuanta_mono tie hd' hd (Nat.le_of_eq h.symm))

theorem roundQuanta_zero (tie : Tie) (hd : 0 < d) : roundQuanta tie 0 d = 0 := by
  have hzero : roundDiv tie 0 (Nat.pow 2 (Nat.log2 (0 / d) - 52) * d) = 0 := by
    refine Nat.le_zero.1 (roundDiv_le tie (Nat.mul_pos (twoPow_pos _) hd) ?_)
    rw [Nat.zero_mul]
  unfold roundQuanta
  dsimp only
  rw [hzero, Nat.mul_zero]

/-- What the bits of the nearest float stand for. -/
theorem bitsQuanta_nearestBits (hd : 0 < d) (h : nearestBits tie n d < infinityBits) :
    bitsQuanta (nearestBits tie n d) = roundQuanta tie n d := by
  have hscale := atScale_log2 n hd
  obtain ⟨hbound, hnormal⟩ := hscale.roundDiv_bounds hd tie
  rw [roundQuanta_eq hscale hd]
  unfold nearestBits at h ⊢
  dsimp only at h ⊢
  -- The bits are finite, so they were not cut to those of infinity.
  rw [Nat.min_eq_right (Nat.le_of_lt (Nat.lt_of_not_le fun hle => by
    rw [Nat.min_eq_left hle] at h
    exact Nat.lt_irrefl _ h))]
  generalize Nat.log2 (n / d) - 52 = shift at *
  generalize roundDiv tie n (Nat.pow 2 shift * d) = rounded at *
  have hdigits : Nat.pow 2 53 = Nat.pow 2 52 * 2 := rfl
  have hpos : 0 < Nat.pow 2 52 := twoPow_pos 52
  unfold bitsQuanta
  rw [Nat.mul_add_div hpos, Nat.mul_add_mod]
  by_cases hsmall : rounded < Nat.pow 2 52
  · -- Fewer digits than a normal number has: a subnormal one, at the least scale.
    obtain rfl : shift = 0 := hnormal.resolve_right (Nat.not_le_of_lt hsmall)
    rw [Nat.div_eq_of_lt hsmall, if_pos rfl]
    show Nat.pow 2 52 * 0 + rounded = 1 * rounded
    rw [Nat.mul_zero, Nat.zero_add, Nat.one_mul]
  · by_cases hcarry : rounded = Nat.pow 2 53
    · -- A carry out of the digits leaves the next power of two.
      rw [hcarry, hdigits, Nat.mul_div_cancel_left 2 hpos, Nat.mul_mod_right,
        if_neg (Nat.succ_ne_zero _), Nat.add_zero]
      show Nat.pow 2 (shift + 1) * Nat.pow 2 52 = _
      rw [twoPow_add, Nat.mul_assoc, Nat.mul_comm (Nat.pow 2 52)]
    · have hquotient : rounded / Nat.pow 2 52 = 1 := by
        refine Nat.div_eq_of_lt_le ?_ ?_
        · omega
        · show rounded < 2 * Nat.pow 2 52
          omega
      have hparts := Nat.div_add_mod rounded (Nat.pow 2 52)
      rw [hquotient, Nat.mul_one] at hparts
      rw [hquotient, if_neg (Nat.succ_ne_zero _), Nat.add_sub_cancel, hparts]

/-- The nearest float stands for the rounded quanta. -/
theorem ofFloat_nearestQuanta (negative : Bool) (hd : 0 < d)
    (h : nearestBits tie n d < infinityBits) :
    ofFloat (nearestQuanta tie negative n d) = .finite negative (roundQuanta tie n d) := by
  have hmeaning := ofBits_signedBits negative h
  have hread := toNat_signedBits negative (Nat.le_of_lt h)
  rw [bitsQuanta_nearestBits hd h] at hmeaning
  unfold nearestQuanta
  rw [ofFloat_ofBits (by rw [hread, hmeaning]; exact Binary.noConfusion), hread, hmeaning]

-- ============================================================ short numbers

/-- No more than 53 binary digits, and zeros behind them. -/
def Short (quanta : Nat) : Prop :=
  ∃ zeros, Nat.pow 2 zeros ∣ quanta ∧ quanta ≤ Nat.pow 2 (zeros + 53)

/-- A short number is a multiple of what its least digit stands for. -/
theorem Short.dvd (h : Short quanta) (hscale : AtScale quanta 1 shift) :
    Nat.pow 2 shift ∣ quanta := by
  obtain ⟨zeros, hdvd, hle⟩ := h
  rcases Nat.lt_or_ge zeros shift with hless | hmore
  · -- It has a digit more than it may, so it is the power of two behind them.
    have hlow : Nat.pow 2 (shift + 52) ≤ quanta := by
      have hlow := hscale.2.resolve_left (Nat.ne_of_gt (Nat.zero_lt_of_lt hless))
      rwa [Nat.mul_one] at hlow
    have hexponents : zeros + 53 ≤ shift + 52 := by omega
    have heq : quanta = Nat.pow 2 (shift + 52) :=
      Nat.le_antisymm (Nat.le_trans hle (twoPow_le hexponents)) hlow
    rw [heq]
    exact twoPow_dvd (Nat.le_add_right shift 52)
  · exact Nat.dvd_trans (twoPow_dvd hmore) hdvd

/-- A short number is rounded to itself. -/
theorem roundQuanta_of_short (tie : Tie) (h : Short quanta) :
    roundQuanta tie quanta 1 = quanta := by
  obtain ⟨shift, hscale⟩ := exists_atScale quanta Nat.one_pos
  obtain ⟨k, hk⟩ := h.dvd hscale
  rw [roundQuanta_eq hscale Nat.one_pos, Nat.mul_one, hk, roundDiv_of_dvd tie k (twoPow_pos shift)]

/-- Rounding gives short numbers. -/
theorem short_roundQuanta (tie : Tie) (n : Nat) (hd : 0 < d) : Short (roundQuanta tie n d) := by
  obtain ⟨shift, hscale⟩ := exists_atScale n hd
  rw [roundQuanta_eq hscale hd]
  refine ⟨shift, Nat.dvd_mul_right _ _, ?_⟩
  rw [twoPow_add]
  exact Nat.mul_le_mul_left _ (hscale.roundDiv_bounds hd tie).1

/-- A multiple and a rest are the quotient and the rest. -/
theorem div_mod_parts {rest : Nat} (k : Nat) (h : rest < d) :
    (d * k + rest) / d = k ∧ (d * k + rest) % d = rest := by
  constructor
  · rw [Nat.mul_add_div (Nat.zero_lt_of_lt h), Nat.div_eq_of_lt h, Nat.add_zero]
  · rw [Nat.mul_add_mod, Nat.mod_eq_of_lt h]

/-- Less than half of the least digit is rounded away. -/
theorem roundQuanta_absorb (tie : Tie) {less : Nat} (h : Short quanta)
    (hscale : AtScale quanta 1 shift) (hless : 2 * less < Nat.pow 2 shift) :
    roundQuanta tie (quanta + less) 1 = quanta := by
  obtain ⟨k, rfl⟩ := h.dvd hscale
  have hfit : k + 1 ≤ Nat.pow 2 53 := by
    have hhigh := hscale.1
    rw [Nat.mul_one, twoPow_add] at hhigh
    exact Nat.lt_of_mul_lt_mul_left hhigh
  -- What is added does not reach the next power of two, so the scale stays.
  have hscale' : AtScale (Nat.pow 2 shift * k + less) 1 shift := by
    constructor
    · have hnext : Nat.pow 2 shift * (k + 1) ≤ Nat.pow 2 (shift + 53) := by
        rw [twoPow_add]
        exact Nat.mul_le_mul_left _ hfit
      rw [Nat.mul_succ] at hnext
      omega
    · exact hscale.2.imp_right fun hlow => Nat.le_trans hlow (Nat.le_add_right _ _)
  obtain ⟨hquotient, hrest⟩ := div_mod_parts k (show less < Nat.pow 2 shift by omega)
  rw [roundQuanta_eq hscale' Nat.one_pos, Nat.mul_one]
  unfold roundDiv
  dsimp only
  rw [hrest, hquotient, if_pos hless]

/-- Rounding is off by no more than half of the least digit. -/
theorem roundQuanta_near (tie : Tie) (hscale : AtScale n 1 shift) :
    2 * roundQuanta tie n 1 ≤ 2 * n + Nat.pow 2 shift := by
  have hnear := (roundDiv_near tie n (twoPow_pos shift)).2
  rw [roundQuanta_eq hscale Nat.one_pos, Nat.mul_one, Nat.mul_comm (Nat.pow 2 shift)]
  exact hnear

/-- The ones of a short number are a short number. -/
theorem Short.ones (h : Short quanta) : Short (unit * (quanta / unit)) := by
  obtain ⟨zeros, hdvd, hle⟩ := h
  obtain ⟨digits, -, hunit⟩ := exists_unit
  have hbelow : unit * (quanta / unit) ≤ quanta := Nat.mul_div_le quanta unit
  -- Either the point is behind the least digit, and the ones are all there is, or cutting at the
  -- point leaves zeros behind it.
  rcases Nat.le_total zeros digits with hfine | hcoarse
  · refine ⟨zeros, ?_, Nat.le_trans hbelow hle⟩
    rw [hunit]
    exact Nat.dvd_trans (twoPow_dvd hfine) (Nat.dvd_mul_right _ _)
  · have hwhole : unit * (quanta / unit) = quanta := by
      refine Nat.mul_div_cancel' (Nat.dvd_trans ?_ hdvd)
      rw [hunit]
      exact twoPow_dvd hcoarse
    rw [hwhole]
    exact ⟨zeros, hdvd, hle⟩

/-- Up to 53 digits before the point are short. -/
theorem short_ones {k : Nat} (h : k ≤ Nat.pow 2 53) : Short (unit * k) := by
  obtain ⟨digits, -, hunit⟩ := exists_unit
  refine ⟨digits, ?_, ?_⟩
  · rw [hunit]
    exact Nat.dvd_mul_right _ _
  · rw [hunit, twoPow_add]
    exact Nat.mul_le_mul_left _ h

/-- Whole numbers are rounded to whole numbers. -/
theorem unit_dvd_roundQuanta (tie : Tie) (k : Nat) : unit ∣ roundQuanta tie (unit * k) 1 := by
  obtain ⟨digits, -, hunit⟩ := exists_unit
  obtain ⟨shift, hscale⟩ := exists_atScale (unit * k) Nat.one_pos
  rw [roundQuanta_eq hscale Nat.one_pos, Nat.mul_one]
  rcases Nat.le_total shift digits with hfine | hcoarse
  · obtain ⟨j, hj⟩ : Nat.pow 2 shift ∣ unit * k := by
      rw [hunit]
      exact Nat.dvd_trans (twoPow_dvd hfine) (Nat.dvd_mul_right _ _)
    rw [hj, roundDiv_of_dvd tie j (twoPow_pos shift), ← hj]
    exact Nat.dvd_mul_right unit k
  · rw [hunit]
    exact Nat.dvd_trans (twoPow_dvd hcoarse) (Nat.dvd_mul_right _ _)

/-- Floats stand for short numbers of quanta. -/
theorem short_of_ofFloat (h : ofFloat x = .finite negative quanta) : Short quanta := by
  have hbits : nearestBits .toEven quanta 1 < infinityBits :=
    nearestBits_lt .toEven Nat.one_pos (by rw [Nat.mul_one]; exact quanta_le h)
  -- A float is the nearest to its own quanta, and what rounding gives is short.
  have hmeaning := ofFloat_nearestQuanta negative Nat.one_pos hbits
  rw [← eq_nearestQuanta .toEven h, h] at hmeaning
  obtain ⟨-, hquanta⟩ := Binary.finite.inj hmeaning
  rw [hquanta]
  exact short_roundQuanta .toEven quanta Nat.one_pos

end Binary

end UnitCalc
