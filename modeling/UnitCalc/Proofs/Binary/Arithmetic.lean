/-
Sums, products and quotients of floats.

Each operation computes with the quanta of its operands and rounds once:
`ofFloat_mul`, `ofFloat_div`, and `ofFloat_add` for operands of one sign. A
result that is rounded beyond the range is an infinity; here the range is a
hypothesis, and those who use these lemmas have bounds on their numbers.

# The shape of the three proofs

An operand is zero or has a mantissa and an exponent (`exists_parts`). With
zeros the model answers by cases, and so do the proofs. Otherwise it computes
a mantissa and an exponent that are exact, or exact but for a rest, and
rounds. What is left to show is that the exponent is not above the one the
rounding aims at (`product_exponent_le`, `divCore_eq`), and that the ratio in
quanta is the one that was rounded. For quotients the latter only holds as an
equation of ratios (`twoPow_balance`), so `roundQuanta_congr` is needed.

`Proofs/Symbol/Rounding` computes with these.
-/
import UnitCalc.Proofs.Binary.Mantissa

namespace UnitCalc.Binary

open Float.Model Float.Model.UnpackedFloat

variable {x y : Float} {negative negative' : Bool} {quanta quanta' : Nat}

/-- The parts of a finite float. -/
theorem exists_parts (h : ofFloat x = .finite negative quanta) :
    ∃ sign : Sign, (sign == .negative) = negative
      ∧ ((x.toModel.unpack = .zero sign ∧ quanta = 0)
        ∨ ∃ mantissa exponent, ∃ hpos : 0 < mantissa,
          x.toModel.unpack = .finite sign mantissa exponent hpos
            ∧ quanta = Nat.pow 2 (exponent + 1074).toNat * mantissa ∧ -1074 ≤ exponent
            ∧ (exponent = -1074 ∨ Nat.pow 2 52 ≤ mantissa)) := by
  have hform := packable_unpack h
  rw [ofFloat_eq] at h
  generalize x.toModel.unpack = u at *
  cases hform with
  | zero sign =>
      cases h
      exact ⟨sign, rfl, .inl ⟨rfl, rfl⟩⟩
  | subnormal sign hpos hlt =>
      cases h
      exact ⟨sign, rfl, .inr ⟨_, _, hpos, rfl, rfl, Int.le_refl _, .inl rfl⟩⟩
  | normal sign hpos hge hlt hleast hgreatest =>
      cases h
      exact ⟨sign, rfl, .inr ⟨_, _, hpos, rfl, rfl, hleast, .inr hge⟩⟩

theorem mul_eq_negative (sign sign' : Sign) :
    (sign * sign' == .negative) = ((sign == .negative) != (sign' == .negative)) := by
  cases sign <;> cases sign' <;> rfl

/-- A product has as many digits as a float, or it is not above the least
exponent. -/
theorem product_exponent_le {mantissa mantissa' : Nat} {exponent exponent' : Int}
    (hpos : 0 < mantissa) (hpos' : 0 < mantissa') (hleast : -1074 ≤ exponent)
    (hleast' : -1074 ≤ exponent') (hfull : exponent = -1074 ∨ Nat.pow 2 52 ≤ mantissa)
    (hfull' : exponent' = -1074 ∨ Nat.pow 2 52 ≤ mantissa') :
    exponent + exponent' ≤ Format.binary64.targetExponent
      (totalExponent (mantissa * mantissa') (exponent + exponent')) := by
  have hproduct : mantissa * mantissa' ≠ 0 := Nat.ne_of_gt (Nat.mul_pos hpos hpos')
  -- One normal factor makes the product long enough; two subnormal ones have an exponent far
  -- below the least.
  have hlong : exponent + exponent' ≤ -1074 ∨ 52 ≤ (mantissa * mantissa').log2 := by
    rcases hfull with hbottom | hfull
    · rcases hfull' with hbottom' | hfull'
      · omega
      · exact .inr ((Nat.le_log2 hproduct).2
          (Nat.le_trans hfull' (Nat.le_mul_of_pos_left mantissa' hpos)))
    · exact .inr ((Nat.le_log2 hproduct).2
        (Nat.le_trans hfull (Nat.le_mul_of_pos_right mantissa hpos')))
  rw [targetExponent_eq, totalExponent]
  omega

/-- A product is the product of the quanta, rounded once. -/
theorem ofFloat_mul (hx : ofFloat x = .finite negative quanta)
    (hy : ofFloat y = .finite negative' quanta')
    (hrange : roundQuanta .toEven (quanta * quanta') unit ≤ unit * greatest) :
    ofFloat (x * y)
      = .finite (negative != negative') (roundQuanta .toEven (quanta * quanta') unit) := by
  obtain ⟨digits, hdigits, hunit⟩ := exists_unit
  obtain ⟨sign, hsign, hparts⟩ := exists_parts hx
  obtain ⟨sign', hsign', hparts'⟩ := exists_parts hy
  have hpacked : ∀ {u : UnpackedFloat},
      UnpackedFloat.mul .binary64 x.toModel.unpack y.toModel.unpack = u → Packable u →
        ofFloat (x * y) = ofUnpacked u := by
    rintro u rfl hform
    exact hform.ofFloat_pack
  rw [← hsign, ← hsign', ← mul_eq_negative]
  rcases hparts with ⟨hu, rfl⟩ | ⟨mantissa, exponent, hpos, hu, rfl, hleast, hfull⟩
  · have hzero : ofFloat (x * y) = ofUnpacked (.zero (sign * sign')) := by
      refine hpacked ?_ (.zero _)
      rw [hu]
      rcases hparts' with ⟨hu', -⟩ | ⟨_, _, _, hu', -⟩ <;> rw [hu'] <;> rfl
    rw [hzero, Nat.zero_mul, roundQuanta_zero .toEven unit_pos]
    rfl
  · rcases hparts' with ⟨hu', rfl⟩ | ⟨mantissa', exponent', hpos', hu', rfl, hleast', hfull'⟩
    · have hzero : ofFloat (x * y) = ofUnpacked (.zero (sign * sign')) := by
        refine hpacked ?_ (.zero _)
        rw [hu, hu']
        rfl
      rw [hzero, Nat.mul_zero, roundQuanta_zero .toEven unit_pos]
      rfl
    · have hle := product_exponent_le hpos hpos' hleast hleast' hfull hfull'
      obtain ⟨hmeaning, hform⟩ := roundWithAccuracy_exact (sign * sign') hle
        (show 0 ≤ exponent + exponent' + 1074 + digits by omega)
      -- In quanta the exponents add up but for one unit, which is the divisor.
      have hquanta : Nat.pow 2 (exponent + exponent' + 1074 + digits).toNat
            * (mantissa * mantissa')
          = Nat.pow 2 (exponent + 1074).toNat * mantissa
            * (Nat.pow 2 (exponent' + 1074).toNat * mantissa') := by
        rw [Nat.mul_mul_mul_comm, ← twoPow_add,
          show (exponent + exponent' + 1074 + digits).toNat
            = (exponent + 1074).toNat + (exponent' + 1074).toNat by omega]
      rw [hquanta, ← hunit] at hmeaning hform
      rw [← hmeaning]
      refine hpacked ?_ (hform hrange)
      rw [hu, hu']
      rfl

/-- The dividend is extended by as many digits as the quotient needs. -/
theorem divCore_eq {mantissa mantissa' : Nat} (exponent exponent' : Int) (hpos : 0 < mantissa)
    (hpos' : 0 < mantissa') :
    ∃ (count : Nat) (fit : Int), fit + count = exponent - exponent'
      ∧ divCore .binary64 mantissa exponent mantissa' exponent'
        = (mantissa * Nat.pow 2 count / mantissa', fit,
          accuracyOfFraction (mantissa * Nat.pow 2 count % mantissa') mantissa')
      ∧ fit ≤ Format.binary64.targetExponent
        (totalExponent (mantissa * Nat.pow 2 count / mantissa') fit) := by
  generalize hfit : min (exponent - exponent') (Format.binary64.targetExponent
    (totalExponent mantissa exponent - totalExponent mantissa' exponent')) = fit
  generalize hcount : (exponent - exponent' - fit).toNat = count
  have hsum : fit + count = exponent - exponent' := by omega
  refine ⟨count, fit, hsum, ?_, ?_⟩
  · unfold divCore
    dsimp only
    rw [hfit, hcount, Nat.shiftLeft_eq]
    rfl
  · rw [targetExponent_eq, totalExponent, totalExponent] at hfit
    rw [targetExponent_eq, totalExponent]
    -- At the least exponent any number of digits will do; above it the quotient has 53.
    by_cases hbottom : fit ≤ -1074
    · omega
    · have hlow : Nat.pow 2 mantissa.log2 ≤ mantissa := Nat.log2_self_le (Nat.ne_of_gt hpos)
      have hhigh : mantissa' < Nat.pow 2 (mantissa'.log2 + 1) := Nat.lt_log2_self
      have hdigits : mantissa'.log2 + 53 ≤ mantissa.log2 + count := by omega
      have hlong : Nat.pow 2 52 ≤ mantissa * Nat.pow 2 count / mantissa' := by
        refine (Nat.le_div_iff_mul_le hpos').2 ?_
        calc Nat.pow 2 52 * mantissa'
          _ ≤ Nat.pow 2 52 * Nat.pow 2 (mantissa'.log2 + 1) :=
            Nat.mul_le_mul_left _ (Nat.le_of_lt hhigh)
          _ = Nat.pow 2 (52 + (mantissa'.log2 + 1)) := (twoPow_add ..).symm
          _ ≤ Nat.pow 2 (mantissa.log2 + count) := twoPow_le (by omega)
          _ = Nat.pow 2 mantissa.log2 * Nat.pow 2 count := twoPow_add ..
          _ ≤ mantissa * Nat.pow 2 count := Nat.mul_le_mul_right _ hlow
      have hlog : 52 ≤ (mantissa * Nat.pow 2 count / mantissa').log2 :=
        (Nat.le_log2 (Nat.ne_of_gt (Nat.lt_of_lt_of_le (twoPow_pos 52) hlong))).2 hlong
      omega

theorem div_eq_negative (sign sign' : Sign) :
    (sign / sign' == .negative) = ((sign == .negative) != (sign' == .negative)) := by
  cases sign <;> cases sign' <;> rfl

/-- Two ratios are the same whichever way the powers of two are shared out. -/
theorem twoPow_balance {a b c d e f : Nat} (m n : Nat) (h : a + b + c = d + e + f) :
    Nat.pow 2 a * (m * Nat.pow 2 b) * (Nat.pow 2 c * n)
      = Nat.pow 2 d * (Nat.pow 2 e * m) * (Nat.pow 2 f * n) :=
  calc Nat.pow 2 a * (m * Nat.pow 2 b) * (Nat.pow 2 c * n)
    _ = Nat.pow 2 (a + b + c) * (m * n) := by
      rw [twoPow_add, twoPow_add]
      ring
    _ = Nat.pow 2 (d + e + f) * (m * n) := by rw [h]
    _ = Nat.pow 2 d * (Nat.pow 2 e * m) * (Nat.pow 2 f * n) := by
      rw [twoPow_add, twoPow_add]
      ring

/-- A quotient is the quotient of the quanta, rounded once. -/
theorem ofFloat_div (hx : ofFloat x = .finite negative quanta)
    (hy : ofFloat y = .finite negative' quanta') (hsome : 0 < quanta')
    (hrange : roundQuanta .toEven (unit * quanta) quanta' ≤ unit * greatest) :
    ofFloat (x / y)
      = .finite (negative != negative') (roundQuanta .toEven (unit * quanta) quanta') := by
  obtain ⟨digits, hdigits, hunit⟩ := exists_unit
  obtain ⟨sign, hsign, hparts⟩ := exists_parts hx
  obtain ⟨sign', hsign', hparts'⟩ := exists_parts hy
  have hpacked : ∀ {u : UnpackedFloat},
      UnpackedFloat.div .binary64 x.toModel.unpack y.toModel.unpack = u → Packable u →
        ofFloat (x / y) = ofUnpacked u := by
    rintro u rfl hform
    exact hform.ofFloat_pack
  rw [← hsign, ← hsign', ← div_eq_negative]
  rcases hparts' with ⟨-, rfl⟩ | ⟨mantissa', exponent', hpos', hu', rfl, hleast', hfull'⟩
  · exact absurd hsome (Nat.lt_irrefl 0)
  rcases hparts with ⟨hu, rfl⟩ | ⟨mantissa, exponent, hpos, hu, rfl, hleast, hfull⟩
  · have hzero : ofFloat (x / y) = ofUnpacked (.zero (sign / sign')) := by
      refine hpacked ?_ (.zero _)
      rw [hu, hu']
      rfl
    rw [hzero, Nat.mul_zero, roundQuanta_zero .toEven hsome]
    rfl
  · obtain ⟨count, fit, hsum, hcore, hle⟩ := divCore_eq exponent exponent' hpos hpos'
    generalize hfine : (-(fit + 1074)).toNat = fine
    obtain ⟨hmeaning, hform⟩ := roundWithAccuracy_eq (sign / sign') hpos' hle
      (show 0 ≤ fit + 1074 + fine by omega)
    -- The two ratios are written with different powers of two.
    have hratio : roundQuanta .toEven
          (Nat.pow 2 (fit + 1074 + fine).toNat * (mantissa * Nat.pow 2 count))
          (Nat.pow 2 fine * mantissa')
        = roundQuanta .toEven (unit * (Nat.pow 2 (exponent + 1074).toNat * mantissa))
          (Nat.pow 2 (exponent' + 1074).toNat * mantissa') := by
      refine roundQuanta_congr .toEven (Nat.mul_pos (twoPow_pos fine) hpos') hsome ?_
      rw [hunit]
      exact twoPow_balance mantissa mantissa' (by omega)
    rw [hratio] at hmeaning hform
    rw [← hmeaning]
    refine hpacked ?_ (hform hrange)
    rw [hu, hu']
    show (match divCore .binary64 mantissa exponent mantissa' exponent' with
      | (m, e, accuracy) => roundWithAccuracy .binary64 (sign / sign') m e accuracy) = _
    rw [hcore]

/-- A sum of one sign is the sum of the quanta, rounded once. -/
theorem ofFloat_add (hx : ofFloat x = .finite negative quanta)
    (hy : ofFloat y = .finite negative quanta')
    (hrange : roundQuanta .toEven (quanta + quanta') 1 ≤ unit * greatest) :
    ofFloat (x + y) = .finite negative (roundQuanta .toEven (quanta + quanta') 1) := by
  obtain ⟨sign, hsign, hparts⟩ := exists_parts hx
  obtain ⟨sign', hsign', hparts'⟩ := exists_parts hy
  obtain rfl : sign = sign' := by
    rw [← hsign'] at hsign
    cases sign <;> cases sign' <;> first | rfl | cases hsign
  have hpacked : ∀ {u : UnpackedFloat},
      UnpackedFloat.add .binary64 x.toModel.unpack y.toModel.unpack = u → Packable u →
        ofFloat (x + y) = ofUnpacked u := by
    rintro u rfl hform
    exact hform.ofFloat_pack
  rcases hparts with ⟨hu, rfl⟩ | ⟨mantissa, exponent, hpos, hu, rfl, hleast, hfull⟩
  · have hsame : ofFloat (x + y) = ofFloat y := by
      rw [ofFloat_eq y]
      refine hpacked ?_ (packable_unpack hy)
      rw [hu]
      rcases hparts' with ⟨hu', -⟩ | ⟨_, _, _, hu', -⟩
      · rw [hu']
        cases sign <;> rfl
      · rw [hu']
        rfl
    rw [hsame, hy, Nat.zero_add, roundQuanta_of_short .toEven (short_of_ofFloat hy)]
  · rcases hparts' with ⟨hu', rfl⟩ | ⟨mantissa', exponent', hpos', hu', rfl, hleast', hfull'⟩
    · have hsame : ofFloat (x + y) = ofFloat x := by
        rw [ofFloat_eq x]
        refine hpacked ?_ (packable_unpack hx)
        rw [hu, hu']
        rfl
      rw [hsame, hx, Nat.add_zero, roundQuanta_of_short .toEven (short_of_ofFloat hx)]
    · -- Both mantissas are brought to the lesser of the exponents.
      generalize hlesser : min exponent exponent' = lesser
      generalize hcount : (exponent - lesser).toNat = count
      generalize hcount' : (exponent' - lesser).toNat = count'
      have hposSum : 0 < mantissa * Nat.pow 2 count + mantissa' * Nat.pow 2 count' :=
        Nat.add_pos_left (Nat.mul_pos hpos (twoPow_pos count)) _
      have hsum : UnpackedFloat.add .binary64 x.toModel.unpack y.toModel.unpack
          = UnpackedFloat.round .binary64 sign
            (mantissa * Nat.pow 2 count + mantissa' * Nat.pow 2 count') lesser := by
        rw [hu, hu', ← normalize_apply sign hposSum lesser .positive, ← apply_add_apply,
          ← hcount, ← hcount', ← hlesser]
        unfold UnpackedFloat.add decreaseExponent
        dsimp only
        rw [Nat.shiftLeft_eq, Nat.shiftLeft_eq]
        rfl
      have hquanta : Nat.pow 2 (lesser + 1074).toNat
            * (mantissa * Nat.pow 2 count + mantissa' * Nat.pow 2 count')
          = Nat.pow 2 (exponent + 1074).toNat * mantissa
            + Nat.pow 2 (exponent' + 1074).toNat * mantissa' := by
        rw [show (exponent + 1074).toNat = (lesser + 1074).toNat + count by omega,
          show (exponent' + 1074).toNat = (lesser + 1074).toNat + count' by omega,
          twoPow_add, twoPow_add]
        ring
      obtain ⟨hmeaning, hform⟩ := round_eq sign hposSum (show -1074 ≤ lesser by omega)
      rw [hquanta] at hmeaning hform
      rw [← hsign, ← hmeaning]
      exact hpacked hsum (hform hrange)

end UnitCalc.Binary
