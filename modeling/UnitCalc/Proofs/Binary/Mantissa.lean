/-
How the operations on floats round.

What an operation computes is a ratio with a power of two. The model keeps the
whole part of the ratio and two bits that tell where the rest of it lies: is it
half or more, and is it anything but nothing and half. That is enough to round
(`roundedMantissa_extended`), and it is kept by a shift, which divides the
ratio by two (`shiftRightOne_extended`); the bits of what is shifted out say of
the ratio by two what they said of the ratio. So `extended n d` after any
number of shifts is `extended n (2 ^ count * d)`, by induction on the shifts.

# Twice

The model rounds once and then brings the rounded mantissa to its exponent
again, because a carry out of the digits makes it one digit longer
(`shiftToTargetExponent_rounded`). The digit that is shifted out then is a
zero, so this loses nothing, and the result is the ratio rounded by
`roundQuanta` (`roundWithAccuracy_eq`, `round_eq`), in the form of a float if
it is in the range.

# Scales

The exponent that the model aims at is the scale of the ratio in quanta
(`atScale_target`). With it the two roundings are the same quotient, and the
arithmetic of exponents is linear; `omega` does it.
-/
import UnitCalc.Proofs.Binary.Packed

namespace UnitCalc.Binary

open Float.Model Float.Model.UnpackedFloat

-- ================================================================= mantissas

/-- The whole part of a ratio, and what is left of it: whether it is half or
more, and whether it is anything but nothing and half. -/
def extended (n d : Nat) : ExtendedMantissa :=
  ⟨n / d, decide (d ≤ 2 * (n % d)), decide (2 * (n % d) % d ≠ 0)⟩

section

variable {n d : Nat}

theorem ofMantissaAndAccuracy_fraction (hd : 0 < d) :
    ExtendedMantissa.ofMantissaAndAccuracy (n / d) (accuracyOfFraction (n % d) d)
      = extended n d := by
  have hlt : n % d < d := Nat.mod_lt n hd
  unfold extended accuracyOfFraction
  generalize n % d = rest at *
  by_cases hzero : rest = 0
  · rw [if_pos hzero, hzero]
    simp only [ExtendedMantissa.ofMantissaAndAccuracy, Nat.mul_zero, Nat.zero_mod]
    congr
    simp
    omega
  · rw [if_neg hzero]
    -- The rest is below the middle, on it, or above it.
    rcases Nat.lt_trichotomy (2 * rest) d with hless | heq | hmore
    · rw [Nat.compare_eq_lt.2 hless, Nat.mod_eq_of_lt hless]
      simp [ExtendedMantissa.ofMantissaAndAccuracy, hzero, hless]
    · rw [Nat.compare_eq_eq.2 heq, heq, Nat.mod_self]
      simp [ExtendedMantissa.ofMantissaAndAccuracy]
    · have hmod : 2 * rest % d = 2 * rest - d := by
        rw [Nat.mod_eq_sub_mod (Nat.le_of_lt hmore), Nat.mod_eq_of_lt (by omega)]
      rw [Nat.compare_eq_gt.2 hmore, hmod]
      simp [ExtendedMantissa.ofMantissaAndAccuracy]
      omega

theorem shiftRightOne_extended (hd : 0 < d) :
    (extended n d).shiftRightOne = extended n (d * 2) := by
  have hlt : n % d < d := Nat.mod_lt n hd
  have hrest : n % (d * 2) = n % d + d * (n / d % 2) := Nat.mod_mul
  -- The digit that is shifted out tells on which side of the middle the rest is now.
  have hround : (n / d % 2 != 0) = decide (d * 2 ≤ 2 * (n % (d * 2))) := by
    rw [Bool.eq_iff_iff, bne_iff_ne, decide_eq_true_iff, hrest]
    rcases Nat.mod_two_eq_zero_or_one (n / d) with heven | hodd
    · rw [heven]
      omega
    · rw [hodd]
      omega
  -- Whatever was there below that digit is still there.
  have hsticky : (decide (d ≤ 2 * (n % d)) || decide (2 * (n % d) % d ≠ 0))
      = decide (2 * (n % (d * 2)) % (d * 2) ≠ 0) := by
    rw [Bool.eq_iff_iff, Bool.or_eq_true, decide_eq_true_iff, decide_eq_true_iff,
      decide_eq_true_iff, Nat.mul_comm d 2, Nat.mul_mod_mul_left, Nat.mul_comm 2 d,
      Nat.mod_mul_right_mod]
    generalize n % d = rest at *
    constructor
    · intro hsome hnone
      have hzero : rest = 0 := by omega
      rw [hzero, Nat.mul_zero, Nat.zero_mod] at hsome
      omega
    · intro hsome
      rcases Nat.lt_or_ge (2 * rest) d with hless | hmore
      · right
        rw [Nat.mod_eq_of_lt hless]
        omega
      · exact .inl hmore
  unfold extended ExtendedMantissa.shiftRightOne
  rw [Nat.div_div_eq_div_mul, hround, hsticky]

theorem shiftRight_extended (hd : 0 < d) (count : Nat) :
    extended n d >>> count = extended n (Nat.pow 2 count * d) := by
  show count.repeat ExtendedMantissa.shiftRightOne (extended n d) = _
  induction count with
  | zero =>
      show extended n d = extended n (1 * d)
      rw [Nat.one_mul]
  | succ count ih =>
      rw [Nat.repeat, ih, shiftRightOne_extended (Nat.mul_pos (twoPow_pos count) hd),
        Nat.mul_right_comm]
      rfl

theorem roundedMantissa_extended (hd : 0 < d) :
    (extended n d).roundedMantissa = roundDiv .toEven n d := by
  have hlt : n % d < d := Nat.mod_lt n hd
  unfold extended roundDiv
  dsimp only
  generalize n % d = rest at *
  rcases Nat.lt_trichotomy (2 * rest) d with hless | heq | hmore
  · rw [if_pos hless, decide_eq_false (Nat.not_le_of_lt hless)]
    cases decide (2 * rest % d ≠ 0) <;> rfl
  · -- On the middle the even neighbour is taken, by adding the last digit.
    rw [heq, Nat.mod_self, if_neg (Nat.lt_irrefl d), if_neg (Nat.lt_irrefl d),
      decide_eq_true (Nat.le_refl d), decide_eq_false (fun h => h rfl)]
    show n / d + n / d % 2 = _
    rcases Nat.mod_two_eq_zero_or_one (n / d) with heven | hodd
    · rw [if_pos ⟨rfl, heven⟩, heven]
      rfl
    · rw [if_neg (fun h => by omega), hodd]
  · have hmod : 2 * rest % d ≠ 0 := by
      rw [Nat.mod_eq_sub_mod (Nat.le_of_lt hmore), Nat.mod_eq_of_lt (by omega)]
      omega
    rw [if_neg (Nat.not_lt_of_lt hmore), if_pos hmore, decide_eq_true (Nat.le_of_lt hmore),
      decide_eq_true hmod]
    rfl

-- ================================================================= rounding

theorem targetExponent_eq (total : Int) :
    Format.binary64.targetExponent total = max (total - 53) (-1074) :=
  rfl

/-- The exponent that a ratio is rounded at stands for its scale. -/
theorem atScale_target {exponent target : Int} {fine : Nat} (hd : 0 < d)
    (htarget : Format.binary64.targetExponent (totalExponent (n / d) exponent) = target)
    (hle : exponent ≤ target) (hfine : 0 ≤ exponent + 1074 + fine) :
    AtScale (Nat.pow 2 (exponent + 1074 + fine).toNat * n) (Nat.pow 2 fine * d)
      (target + 1074).toNat := by
  have hhigh : n < Nat.pow 2 ((n / d).log2 + 1) * d :=
    (Nat.div_lt_iff_lt_mul hd).1 Nat.lt_log2_self
  have hlow : (n / d).log2 = 0 ∨ Nat.pow 2 (n / d).log2 * d ≤ n := by
    by_cases hwhole : n / d = 0
    · rw [hwhole]
      exact .inl Nat.log2_zero
    · exact .inr ((Nat.le_div_iff_mul_le hd).1 (Nat.log2_self_le hwhole))
  rw [targetExponent_eq, totalExponent] at htarget
  generalize (n / d).log2 = digits at *
  generalize hcoarse : (exponent + 1074 + fine).toNat = coarse at *
  generalize hshift : (target + 1074).toNat = shift at *
  constructor
  · calc Nat.pow 2 coarse * n
      _ < Nat.pow 2 coarse * (Nat.pow 2 (digits + 1) * d) :=
        Nat.mul_lt_mul_of_pos_left hhigh (twoPow_pos coarse)
      _ = Nat.pow 2 (coarse + (digits + 1)) * d := by rw [← Nat.mul_assoc, ← twoPow_add]
      _ ≤ Nat.pow 2 (shift + 53 + fine) * d := Nat.mul_le_mul_right d (twoPow_le (by omega))
      _ = Nat.pow 2 (shift + 53) * (Nat.pow 2 fine * d) := by rw [twoPow_add, Nat.mul_assoc]
  · -- At the least exponent nothing is said of the number of digits.
    by_cases hbottom : target = -1074
    · left
      omega
    · right
      calc Nat.pow 2 (shift + 52) * (Nat.pow 2 fine * d)
        _ = Nat.pow 2 (shift + 52 + fine) * d := by rw [← Nat.mul_assoc, ← twoPow_add]
        _ = Nat.pow 2 (coarse + digits) * d := by
          rw [show shift + 52 + fine = coarse + digits by omega]
        _ = Nat.pow 2 coarse * (Nat.pow 2 digits * d) := by rw [twoPow_add, Nat.mul_assoc]
        _ ≤ Nat.pow 2 coarse * n := Nat.mul_le_mul_left _ (hlow.resolve_left (by omega))

/-- A ratio is shifted to the exponent it is rounded at. -/
theorem shiftToTargetExponent_eq {exponent target : Int} (hd : 0 < d)
    (htarget : Format.binary64.targetExponent (totalExponent (n / d) exponent) = target)
    (hle : exponent ≤ target) :
    shiftToTargetExponent .binary64 (n / d) exponent (accuracyOfFraction (n % d) d)
      = (extended n (Nat.pow 2 (target - exponent).toNat * d), target) := by
  have hexponent : exponent + ((target - exponent).toNat : Int) = target := by omega
  unfold shiftToTargetExponent shiftToExponent
  dsimp only
  rw [htarget, ofMantissaAndAccuracy_fraction hd, shiftRight_extended hd, hexponent]

/-- A mantissa that has been rounded is shifted no more, unless a carry out
of its digits moved it to the next exponent. -/
theorem shiftToTargetExponent_rounded {rounded : Nat} {target : Int} (hfloor : -1074 ≤ target)
    (hle : rounded ≤ Nat.pow 2 53) (hfull : target = -1074 ∨ Nat.pow 2 52 ≤ rounded) :
    (rounded < Nat.pow 2 53
        ∧ shiftToTargetExponent .binary64 rounded target .exact = (extended rounded 1, target))
      ∨ (rounded = Nat.pow 2 53
        ∧ shiftToTargetExponent .binary64 rounded target .exact
          = (extended (Nat.pow 2 53) 2, target + 1)) := by
  have hshift := @shiftToTargetExponent_eq rounded 1 target
  rw [Nat.div_one, Nat.mod_one, show accuracyOfFraction 0 1 = .exact from rfl,
    targetExponent_eq, totalExponent] at hshift
  rcases Nat.lt_or_eq_of_le hle with hless | rfl
  · left
    have hlog : rounded.log2 < 53 := log2_lt_of_lt_twoPow (Nat.succ_pos _) hless
    have hdigits : target = -1074 ∨ rounded.log2 = 52 := by
      refine hfull.imp_right fun hge => ?_
      exact (Nat.log2_eq_iff (Nat.ne_of_gt (Nat.lt_of_lt_of_le (twoPow_pos 52) hge))).2 ⟨hge, hless⟩
    have hkept := @hshift target Nat.one_pos (by omega) (Int.le_refl _)
    rw [Int.sub_self] at hkept
    exact ⟨hless, hkept⟩
  · right
    have hlog : (Nat.pow 2 53).log2 = 53 := Nat.log2_two_pow
    have hmoved := @hshift (target + 1) Nat.one_pos (by omega) (by omega)
    rw [show target + 1 - target = 1 by omega] at hmoved
    exact ⟨rfl, hmoved⟩

/-- The unpacked float of a mantissa and an exponent. -/
def ofParts (sign : Sign) (mantissa : Nat) (exponent : Int) : UnpackedFloat :=
  if h : mantissa = 0 then .zero sign else .finite sign mantissa exponent (Nat.pos_of_ne_zero h)

theorem ofUnpacked_ofParts (sign : Sign) (mantissa : Nat) (exponent : Int) :
    ofUnpacked (ofParts sign mantissa exponent)
      = .finite (sign == .negative) (Nat.pow 2 (exponent + 1074).toNat * mantissa) := by
  unfold ofParts
  split
  · next hzero =>
      rw [hzero]
      rfl
  · rfl

/-- Quanta in the range have no exponent beyond it. -/
theorem exponent_le {zeros digits mantissa : Nat} (hdigits : Nat.pow 2 digits ≤ mantissa)
    (hrange : Nat.pow 2 zeros * mantissa ≤ unit * greatest) :
    zeros + digits < 1074 + 971 + 53 := by
  rw [unit_mul_greatest] at hrange
  -- With a name for the exponent nothing evaluates the power.
  generalize 1074 + 971 = top at *
  have hlt : Nat.pow 2 (zeros + digits) < Nat.pow 2 (top + 53) := by
    rw [twoPow_add zeros, twoPow_add top]
    refine Nat.lt_of_le_of_lt (Nat.le_trans (Nat.mul_le_mul_left _ hdigits) hrange) ?_
    exact Nat.mul_lt_mul_of_pos_left (by decide) (twoPow_pos _)
  exact (Nat.pow_lt_pow_iff_right (by decide)).1 hlt

/-- No more than 53 digits at an exponent in the range have the form of a
float. -/
theorem packable_ofParts {mantissa : Nat} {exponent : Int} (sign : Sign)
    (hfloor : -1074 ≤ exponent) (hlt : mantissa < Nat.pow 2 53)
    (hfull : exponent = -1074 ∨ Nat.pow 2 52 ≤ mantissa)
    (hrange : Nat.pow 2 (exponent + 1074).toNat * mantissa ≤ unit * greatest) :
    Packable (ofParts sign mantissa exponent) := by
  unfold ofParts
  split
  · exact .zero sign
  · rcases Nat.lt_or_ge mantissa (Nat.pow 2 52) with hsmall | hge
    · obtain rfl : exponent = -1074 := hfull.resolve_right (Nat.not_le_of_lt hsmall)
      exact .subnormal sign _ hsmall
    · have hexponent := exponent_le hge hrange
      exact .normal sign _ hge hlt hfloor (by omega)

/-- What the model makes of a mantissa that was rounded at an exponent. -/
def ofRounded (sign : Sign) (rounded : Nat) (target : Int) : UnpackedFloat :=
  let shifted := shiftToTargetExponent .binary64 rounded target .exact
  ofParts sign shifted.1.mantissa shifted.2

theorem roundWithAccuracy_eq_ofRounded {exponent target : Int} (sign : Sign) (hd : 0 < d)
    (htarget : Format.binary64.targetExponent (totalExponent (n / d) exponent) = target)
    (hle : exponent ≤ target) :
    roundWithAccuracy .binary64 sign (n / d) exponent (accuracyOfFraction (n % d) d)
      = ofRounded sign (roundDiv .toEven n (Nat.pow 2 (target - exponent).toNat * d)) target := by
  unfold roundWithAccuracy
  rw [shiftToTargetExponent_eq hd htarget hle]
  dsimp only
  rw [roundedMantissa_extended (Nat.mul_pos (twoPow_pos _) hd)]
  rfl

theorem ofRounded_eq {rounded : Nat} {target : Int} (sign : Sign) (hfloor : -1074 ≤ target)
    (hle : rounded ≤ Nat.pow 2 53) (hfull : target = -1074 ∨ Nat.pow 2 52 ≤ rounded) :
    ofUnpacked (ofRounded sign rounded target)
        = .finite (sign == .negative) (Nat.pow 2 (target + 1074).toNat * rounded)
      ∧ (Nat.pow 2 (target + 1074).toNat * rounded ≤ unit * greatest →
        Packable (ofRounded sign rounded target)) := by
  unfold ofRounded
  rcases shiftToTargetExponent_rounded hfloor hle hfull with ⟨hless, hshifted⟩ | ⟨rfl, hshifted⟩
  · have hmantissa : (extended rounded 1).mantissa = rounded := Nat.div_one rounded
    rw [hshifted]
    dsimp only
    rw [hmantissa]
    exact ⟨ofUnpacked_ofParts sign rounded target, packable_ofParts sign hfloor hless hfull⟩
  · have hmantissa : (extended (Nat.pow 2 53) 2).mantissa = Nat.pow 2 52 := rfl
    have hquanta : Nat.pow 2 (target + 1074).toNat * Nat.pow 2 53
        = Nat.pow 2 (target + 1 + 1074).toNat * Nat.pow 2 52 := by
      rw [← twoPow_add, ← twoPow_add,
        show (target + 1 + 1074).toNat + 52 = (target + 1074).toNat + 53 by omega]
    rw [hshifted, hquanta]
    dsimp only
    rw [hmantissa]
    exact ⟨ofUnpacked_ofParts sign _ _,
      packable_ofParts sign (by omega) (by decide) (.inr (Nat.le_refl _))⟩

/-- A ratio that the model rounds is rounded as its quanta are. -/
theorem roundWithAccuracy_eq {exponent : Int} {fine : Nat} (sign : Sign) (hd : 0 < d)
    (hle : exponent ≤ Format.binary64.targetExponent (totalExponent (n / d) exponent))
    (hfine : 0 ≤ exponent + 1074 + fine) :
    let u := roundWithAccuracy .binary64 sign (n / d) exponent (accuracyOfFraction (n % d) d)
    let quanta := roundQuanta .toEven (Nat.pow 2 (exponent + 1074 + fine).toNat * n)
      (Nat.pow 2 fine * d)
    ofUnpacked u = .finite (sign == .negative) quanta
      ∧ (quanta ≤ unit * greatest → Packable u) := by
  generalize htarget :
    Format.binary64.targetExponent (totalExponent (n / d) exponent) = target at hle
  have hscale := atScale_target hd htarget hle hfine
  have hfloor : -1074 ≤ target := by
    rw [← htarget, targetExponent_eq]
    exact Int.le_max_right _ _
  have hfinepos : 0 < Nat.pow 2 fine * d := Nat.mul_pos (twoPow_pos fine) hd
  obtain ⟨hbound, hfull⟩ := hscale.roundDiv_bounds hfinepos .toEven
  have hratio : roundDiv .toEven (Nat.pow 2 (exponent + 1074 + fine).toNat * n)
        (Nat.pow 2 (target + 1074).toNat * (Nat.pow 2 fine * d))
      = roundDiv .toEven n (Nat.pow 2 (target - exponent).toNat * d) := by
    rw [← Nat.mul_assoc, ← twoPow_add,
      show (target + 1074).toNat + fine
        = (exponent + 1074 + fine).toNat + (target - exponent).toNat by omega,
      twoPow_add, Nat.mul_assoc, roundDiv_mul .toEven (twoPow_pos _)]
  dsimp only
  rw [roundQuanta_eq hscale hfinepos, hratio,
    roundWithAccuracy_eq_ofRounded sign hd htarget hle]
  rw [hratio] at hbound hfull
  exact ofRounded_eq sign hfloor hbound (hfull.imp_left fun hzero => by omega)

/-- A mantissa at an exponent is rounded as its quanta are. -/
theorem roundWithAccuracy_exact {mantissa : Nat} {exponent : Int} {fine : Nat} (sign : Sign)
    (hle : exponent ≤ Format.binary64.targetExponent (totalExponent mantissa exponent))
    (hfine : 0 ≤ exponent + 1074 + fine) :
    let u := roundWithAccuracy .binary64 sign mantissa exponent .exact
    let quanta := roundQuanta .toEven (Nat.pow 2 (exponent + 1074 + fine).toNat * mantissa)
      (Nat.pow 2 fine)
    ofUnpacked u = .finite (sign == .negative) quanta
      ∧ (quanta ≤ unit * greatest → Packable u) := by
  have hratio := @roundWithAccuracy_eq mantissa 1 exponent fine sign Nat.one_pos
  rw [Nat.div_one, Nat.mod_one, show accuracyOfFraction 0 1 = .exact from rfl,
    Nat.mul_one] at hratio
  exact hratio hle hfine

end

theorem log2_mul_twoPow {mantissa : Nat} (hpos : 0 < mantissa) (count : Nat) :
    (mantissa * Nat.pow 2 count).log2 = mantissa.log2 + count := by
  have hproduct : mantissa * Nat.pow 2 count ≠ 0 :=
    Nat.ne_of_gt (Nat.mul_pos hpos (twoPow_pos count))
  refine (Nat.log2_eq_iff hproduct).2 ⟨?_, ?_⟩
  · show Nat.pow 2 (mantissa.log2 + count) ≤ _
    rw [twoPow_add]
    exact Nat.mul_le_mul_right _ (Nat.log2_self_le (Nat.ne_of_gt hpos))
  · show _ < Nat.pow 2 (mantissa.log2 + count + 1)
    rw [Nat.add_right_comm, twoPow_add]
    exact Nat.mul_lt_mul_of_pos_right Nat.lt_log2_self (twoPow_pos count)

/-- A mantissa at any exponent is rounded as its quanta are. -/
theorem round_eq {mantissa : Nat} {exponent : Int} (sign : Sign) (hpos : 0 < mantissa)
    (hleast : -1074 ≤ exponent) :
    let u := UnpackedFloat.round .binary64 sign mantissa exponent
    let quanta := roundQuanta .toEven (Nat.pow 2 (exponent + 1074).toNat * mantissa) 1
    ofUnpacked u = .finite (sign == .negative) quanta
      ∧ (quanta ≤ unit * greatest → Packable u) := by
  generalize htarget : Format.binary64.targetExponent (totalExponent mantissa exponent) = target
  generalize hcount : (exponent - target).toNat = count
  have hround : UnpackedFloat.round .binary64 sign mantissa exponent
      = roundWithAccuracy .binary64 sign (mantissa * Nat.pow 2 count) (exponent - count)
        .exact := by
    unfold UnpackedFloat.round decreaseExponent
    dsimp only
    rw [htarget, hcount, Nat.shiftLeft_eq]
    rfl
  rw [targetExponent_eq, totalExponent] at htarget
  have hle : exponent - count ≤ Format.binary64.targetExponent
      (totalExponent (mantissa * Nat.pow 2 count) (exponent - count)) := by
    rw [targetExponent_eq, totalExponent, log2_mul_twoPow hpos]
    omega
  have hquanta : Nat.pow 2 (exponent - count + 1074 + (0 : Nat)).toNat
        * (mantissa * Nat.pow 2 count)
      = Nat.pow 2 (exponent + 1074).toNat * mantissa := by
    rw [Nat.mul_comm mantissa, ← Nat.mul_assoc, ← twoPow_add,
      show (exponent - count + 1074 + (0 : Nat)).toNat + count = (exponent + 1074).toNat by omega]
  have hrounded := @roundWithAccuracy_exact _ _ 0 sign hle (by omega)
  rw [hquanta] at hrounded
  rw [hround]
  exact hrounded

theorem normalize_apply {mantissa : Nat} (sign : Sign) (hpos : 0 < mantissa) (exponent : Int)
    (zeroSign : Sign) :
    UnpackedFloat.normalize .binary64 (sign.apply mantissa) exponent zeroSign
      = UnpackedFloat.round .binary64 sign mantissa exponent := by
  unfold UnpackedFloat.normalize
  cases sign with
  | positive =>
      have hsign : compare (Sign.positive.apply mantissa) 0 = .gt := by
        rw [Int.compare_eq_gt]
        exact Int.natCast_pos.2 hpos
      rw [hsign]
      rfl
  | negative =>
      have hsign : compare (Sign.negative.apply mantissa) 0 = .lt := by
        rw [Int.compare_eq_lt]
        exact Int.neg_neg_of_pos (Int.natCast_pos.2 hpos)
      have hmagnitude : -Sign.negative.apply mantissa = mantissa := Int.neg_neg _
      rw [hsign, hmagnitude]
      rfl

theorem apply_add_apply (sign : Sign) (m m' : Nat) :
    sign.apply m + sign.apply m' = sign.apply (m + m' : Nat) := by
  cases sign with
  | positive => rfl
  | negative =>
      show -(m : Int) + -(m' : Int) = -((m + m' : Nat) : Int)
      omega

end UnitCalc.Binary
