/-
Where random numbers lie.

What is drawn lies between whole numbers that are floats, and rounding keeps
that (`Numeric.ofQuotient_between`): a float that is not below a fraction is
not below what the fraction is rounded to, since the float is rounded to
itself. In the same way the result is seen to be finite.

# Cut bounds

The bounds of a call are cut to whole numbers before anything is drawn, so a
result lies between the cut bounds (`Numeric.drawn_one_within`,
`Numeric.drawn_two_within`), and between the bounds themselves if cutting
moves them inward. Cutting goes toward zero, so one bound is moved up over
zero only where it lies between minus one and zero, and of two bounds the
lower one may be moved outward if it is positive, and the upper one if it is
negative.

# What is promised

The promises are about numbers, so they speak of `value`; what is not finite
has the value zero, and that a result is finite is a part of them
(`Numeric.FractionWithin`, `Numeric.WholeWithin`). For which arguments they
hold is `Numeric.rand_within_iff`. That they fail for all others is shown by
dice that fall on an end.
-/
import UnitCalc.Proofs.Binary.Value
import UnitCalc.Proofs.Symbol.Builtins

namespace UnitCalc.Numeric

open Binary

variable {d : Nat} {v w : Value} {x y : Float} {arguments : List Value} {draws : Draws}

-- ================================================================= rounding

theorem ratio_le {n k : Nat} (hd : 0 < d) (hshort : Short (unit * k)) (h : n ≤ k * d) :
    (roundQuanta .toEven (unit * n) d / unit : ℚ) ≤ k := by
  have hle : roundQuanta .toEven (unit * n) d ≤ unit * k :=
    calc roundQuanta .toEven (unit * n) d
      _ ≤ roundQuanta .toEven (unit * k) 1 := by
        refine roundQuanta_mono .toEven hd Nat.one_pos ?_
        rw [Nat.mul_one, Nat.mul_assoc]
        exact Nat.mul_le_mul_left unit h
      _ = unit * k := roundQuanta_of_short .toEven hshort
  rw [Nat.mul_comm unit k] at hle
  refine (div_le_iff₀ unit_pos_rat).2 ?_
  exact_mod_cast hle

theorem le_ratio {n k : Nat} (hd : 0 < d) (hshort : Short (unit * k)) (h : k * d ≤ n) :
    (k : ℚ) ≤ roundQuanta .toEven (unit * n) d / unit := by
  have hle : unit * k ≤ roundQuanta .toEven (unit * n) d :=
    calc unit * k
      _ = roundQuanta .toEven (unit * k) 1 := (roundQuanta_of_short .toEven hshort).symm
      _ ≤ roundQuanta .toEven (unit * n) d := by
        refine roundQuanta_mono .toEven Nat.one_pos hd ?_
        rw [Nat.mul_one, Nat.mul_assoc]
        exact Nat.mul_le_mul_left unit h
  rw [Nat.mul_comm unit k] at hle
  refine (le_div_iff₀ unit_pos_rat).2 ?_
  exact_mod_cast hle

/-- The float of a fraction in the range. -/
theorem ofQuotient_eq {n : Int} (hd : 0 < d) (hrange : n.natAbs ≤ greatest * d) :
    ∃ r, ofQuotient n d = .ok (.number r)
      ∧ ofFloat r = .finite (decide (n < 0)) (roundQuanta .toEven (unit * n.natAbs) d) := by
  have hbits : nearestBits .toEven (unit * n.natAbs) d < infinityBits := by
    refine nearestBits_lt .toEven hd ?_
    rw [Nat.mul_assoc]
    exact Nat.mul_le_mul_left unit hrange
  refine ⟨nearest (decide (n < 0)) n.natAbs d, ?_, ofFloat_nearestQuanta _ hd hbits⟩
  unfold ofQuotient ofQuotient? nearest?
  rw [if_pos hbits]

/-- Whole numbers that floats stand for. -/
def Representable (n : Int) : Prop :=
  Short (unit * n.natAbs) ∧ n.natAbs ≤ greatest

theorem Representable.neg {n : Int} (h : Representable n) : Representable (-n) := by
  unfold Representable
  rw [Int.natAbs_neg]
  exact h

/-- Between two floats a ratio is rounded to something between them. -/
theorem ratio_between {low high : Int} {n : Nat} (hd : 0 < d) (hlow : Representable low)
    (hhigh : Representable high) (hleast : low * d ≤ n) (hmost : n ≤ high * d) :
    (low : ℚ) ≤ roundQuanta .toEven (unit * n) d / unit
      ∧ (roundQuanta .toEven (unit * n) d / unit : ℚ) ≤ high := by
  have hd' : (0 : Int) < d := Int.natCast_pos.2 hd
  -- The fraction is not negative, so only a positive lower bound says anything.
  constructor
  · rcases le_or_gt low 0 with hnegative | hpositive
    · exact le_trans (Int.cast_nonpos.2 hnegative)
        (div_nonneg (Nat.cast_nonneg _) (Nat.cast_nonneg _))
    · obtain ⟨k, rfl⟩ := Int.eq_ofNat_of_zero_le (le_of_lt hpositive)
      exact le_ratio hd hlow.1 (by exact_mod_cast hleast)
  · have hnonneg : 0 ≤ high := by
      by_contra hnegative
      have hless : high * d < 0 := Int.mul_neg_of_neg_of_pos (not_le.1 hnegative) hd'
      omega
    obtain ⟨k, rfl⟩ := Int.eq_ofNat_of_zero_le hnonneg
    exact ratio_le hd hhigh.1 (by exact_mod_cast hmost)

/-- Between two floats a fraction is rounded to a float between them. -/
theorem ofQuotient_between {low n high : Int} (hd : 0 < d) (hlow : Representable low)
    (hhigh : Representable high) (hleast : low * d ≤ n) (hmost : n ≤ high * d) :
    ∃ r, ofQuotient n d = .ok (.number r) ∧ isFinite r = true
      ∧ (low : ℚ) ≤ value r ∧ value r ≤ high := by
  have hrange : n.natAbs ≤ greatest * d := by
    have hlowest : (low * d).natAbs ≤ greatest * d := by
      rw [Int.natAbs_mul, Int.natAbs_natCast]
      exact Nat.mul_le_mul_right d hlow.2
    have hhighest : (high * d).natAbs ≤ greatest * d := by
      rw [Int.natAbs_mul, Int.natAbs_natCast]
      exact Nat.mul_le_mul_right d hhigh.2
    omega
  obtain ⟨r, hr, hmeaning⟩ := ofQuotient_eq hd hrange
  refine ⟨r, hr, isFinite_of_eq hmeaning, ?_⟩
  unfold value
  rw [hmeaning]
  rcases lt_or_ge n 0 with hnegative | hpositive
  · -- Below zero the magnitude lies between the bounds the other way round.
    have hnegated : -high * d ≤ n.natAbs ∧ n.natAbs ≤ -low * d := by
      rw [Int.neg_mul, Int.neg_mul]
      omega
    obtain ⟨hleast', hmost'⟩ := ratio_between hd hhigh.neg hlow.neg hnegated.1 hnegated.2
    rw [Int.cast_neg] at hleast' hmost'
    rw [decide_eq_true hnegative, toRat]
    exact ⟨le_neg_of_le_neg hmost', neg_le_of_neg_le hleast'⟩
  · have hmagnitude : (n.natAbs : Int) = n := Int.natAbs_of_nonneg hpositive
    rw [decide_eq_false (not_lt.2 hpositive), toRat]
    exact ratio_between hd hlow hhigh (by rwa [hmagnitude]) (by rwa [hmagnitude])

/-- A whole number is rounded to a whole number. -/
theorem ofQuotient_one_whole {n : Int} (hrange : n.natAbs ≤ greatest) :
    ∃ (r : Float) (m : ℤ), ofQuotient n 1 = .ok (.number r) ∧ value r = m := by
  obtain ⟨r, hr, hmeaning⟩ := ofQuotient_eq Nat.one_pos (by rwa [Nat.mul_one])
  obtain ⟨k, hk⟩ := unit_dvd_roundQuanta .toEven n.natAbs
  rw [hk] at hmeaning
  exact ⟨r, _, hr, value_ones hmeaning⟩

-- ==================================================================== calls

/-- What a call answers when the dice fall so. -/
def drawn (arguments : List Value) (draws : Draws) : Except Fault Value :=
  ((rand arguments).run draws).1

theorem wholeArgument_eq {function : String} {index : Nat} (hv : arguments[index]? = some v)
    (hread : v.toFloat = .ok x) (hfinite : isFinite x = true) :
    wholeArgument function arguments index = .ok (cut (value x)) := by
  obtain ⟨negative, quanta, hx⟩ := exists_of_isFinite hfinite
  unfold wholeArgument
  rw [argument_eq hv hread hfinite]
  show Except.ok ((ofFloat x).truncate?.getD 0) = _
  rw [truncate?_eq hx, Option.getD_some]

theorem representable_cut (hfinite : isFinite x = true) : Representable (cut (value x)) := by
  obtain ⟨negative, quanta, hx⟩ := exists_of_isFinite hfinite
  exact short_cut hx

/-- Zero and one are floats. -/
theorem representable_of_le_one {n : Int} (h : n.natAbs ≤ 1) : Representable n :=
  ⟨short_ones (Nat.le_trans h (twoPow_pos 53)), Nat.le_trans h greatest_pos⟩

theorem drawn_fraction {bound : Int} (hlow : 0 ≤ bound) (hbound : Representable bound)
    (draws : Draws) :
    ∃ r, ((do let n ← draw 0 (bound * steps); ofQuotient n steps : Drawing Value).run draws).1
        = .ok (.number r)
      ∧ isFinite r = true ∧ 0 ≤ value r ∧ value r ≤ bound := by
  have hordered : 0 ≤ bound * (steps : Int) := Int.mul_nonneg hlow (by decide)
  obtain ⟨hleast, hmost⟩ := draws.dice.within draws.made.length 0 (bound * steps) hordered
  rw [run_bind_ok (run_draw 0 (bound * steps) draws), run_lift]
  obtain ⟨r, hr, hdrawn, hlow', hhigh'⟩ := ofQuotient_between (d := steps) (by decide)
    (@representable_of_le_one 0 (by decide)) hbound (by rwa [Int.zero_mul]) hmost
  exact ⟨r, hr, hdrawn, by exact_mod_cast hlow', hhigh'⟩

theorem drawn_nil (draws : Draws) :
    ∃ r, drawn [] draws = .ok (.number r) ∧ isFinite r = true ∧ 0 ≤ value r ∧ value r ≤ 1 := by
  obtain ⟨r, hr, hdrawn, hlow, hhigh⟩ := drawn_fraction (show (0 : Int) ≤ 1 by decide)
    (@representable_of_le_one 1 (by decide)) draws
  exact ⟨r, hr, hdrawn, hlow, by exact_mod_cast hhigh⟩

section

variable (hread : v.toFloat = .ok x) (hfinite : isFinite x = true)

include hread hfinite

theorem drawn_one_refused (hcut : cut (value x) < 0) :
    drawn [v] draws = .error (refuse "rand" (.negativeBound (cut (value x)))) := by
  have hsome : ¬ [v].isEmpty = true := Bool.false_ne_true
  unfold drawn rand
  rw [if_neg hsome, wholeArgument_eq rfl hread hfinite,
    run_bind_ok (run_lift (.ok (cut (value x))) draws), if_pos List.length_singleton, if_pos hcut]
  rfl

/-- With one bound a result lies between zero and the cut bound. -/
theorem drawn_one_within (hcut : 0 ≤ cut (value x)) :
    ∃ r, drawn [v] draws = .ok (.number r) ∧ isFinite r = true
      ∧ 0 ≤ value r ∧ value r ≤ cut (value x) := by
  have hsome : ¬ [v].isEmpty = true := Bool.false_ne_true
  unfold drawn rand
  rw [if_neg hsome, wholeArgument_eq rfl hread hfinite,
    run_bind_ok (run_lift (.ok (cut (value x))) draws), if_pos List.length_singleton,
    if_neg (not_lt.2 hcut)]
  exact drawn_fraction hcut (representable_cut hfinite) draws

variable (hread' : w.toFloat = .ok y) (hfinite' : isFinite y = true)

include hread' hfinite'

theorem drawn_two_refused (hcut : cut (value y) < cut (value x)) :
    drawn [v, w] draws
      = .error (refuse "rand" (.emptyRange (cut (value x)) (cut (value y)))) := by
  have hsome : ¬ [v, w].isEmpty = true := Bool.false_ne_true
  have htwo : ¬ [v, w].length = 1 := Nat.succ_succ_ne_one 0
  unfold drawn rand
  rw [if_neg hsome, wholeArgument_eq rfl hread hfinite,
    run_bind_ok (run_lift (.ok (cut (value x))) draws), if_neg htwo,
    wholeArgument_eq rfl hread' hfinite',
    run_bind_ok (run_lift (.ok (cut (value y))) draws), if_pos hcut]
  rfl

theorem drawn_two_eq (hcut : cut (value x) ≤ cut (value y)) :
    drawn [v, w] draws
      = ofQuotient (draws.dice.pick draws.made.length (cut (value x)) (cut (value y))) 1 := by
  have hsome : ¬ [v, w].isEmpty = true := Bool.false_ne_true
  have htwo : ¬ [v, w].length = 1 := Nat.succ_succ_ne_one 0
  unfold drawn rand
  rw [if_neg hsome, wholeArgument_eq rfl hread hfinite,
    run_bind_ok (run_lift (.ok (cut (value x))) draws), if_neg htwo,
    wholeArgument_eq rfl hread' hfinite',
    run_bind_ok (run_lift (.ok (cut (value y))) draws), if_neg (not_lt.2 hcut)]
  rfl

/-- With two bounds a result is a whole number between the cut bounds. -/
theorem drawn_two_within (hcut : cut (value x) ≤ cut (value y)) :
    ∃ (r : Float) (m : ℤ), drawn [v, w] draws = .ok (.number r) ∧ isFinite r = true
      ∧ value r = m ∧ cut (value x) ≤ m ∧ m ≤ cut (value y) := by
  have hlow := representable_cut hfinite
  have hhigh := representable_cut hfinite'
  obtain ⟨hleast, hmost⟩ := draws.dice.within draws.made.length _ _ hcut
  rw [drawn_two_eq hread hfinite hread' hfinite' hcut]
  generalize draws.dice.pick draws.made.length (cut (value x)) (cut (value y)) = n at *
  have hrange : n.natAbs ≤ greatest := by
    have hlowest := hlow.2
    have hhighest := hhigh.2
    omega
  -- The same draw is looked at twice, as a whole number and as one between the bounds.
  obtain ⟨r, m, hr, hm⟩ := ofQuotient_one_whole hrange
  obtain ⟨r', hr', hdrawn, hleast', hmost'⟩ := ofQuotient_between (n := n) Nat.one_pos hlow hhigh
    (by rwa [Nat.cast_one, Int.mul_one]) (by rwa [Nat.cast_one, Int.mul_one])
  obtain rfl : r = r' := Value.number.inj (Except.ok.inj (hr.symm.trans hr'))
  rw [hm, Int.cast_le] at hleast' hmost'
  exact ⟨r, m, hr, hdrawn, hm, hleast', hmost'⟩

/-- Dice that fall on a cut bound give it. -/
theorem drawn_two_of_pick {n : Int} (hcut : cut (value x) ≤ cut (value y))
    (hpick : draws.dice.pick draws.made.length (cut (value x)) (cut (value y)) = n)
    (hn : Representable n) : ∃ r, drawn [v, w] draws = .ok (.number r) ∧ value r = n := by
  have hsame : n * (1 : Nat) = n := Int.mul_one n
  obtain ⟨r, hr, -, hleast, hmost⟩ := ofQuotient_between Nat.one_pos hn hn
    (Int.le_of_eq hsame) (Int.le_of_eq hsame.symm)
  rw [drawn_two_eq hread hfinite hread' hfinite' hcut, hpick]
  exact ⟨r, hr, le_antisymm hmost hleast⟩

end

-- ================================================================= promises

/-- What is promised of one bound: it is refused if it is negative, and
otherwise the result is a finite number between zero and it. The bounds alone
would not say so, since `value` counts what is not finite as zero. -/
def FractionWithin (bound : ℚ) (answer : Except Fault Value) : Prop :=
  (bound < 0 → ∃ issue, answer = .error (refuse "rand" issue))
    ∧ (0 ≤ bound →
      ∃ r, answer = .ok (.number r) ∧ isFinite r = true ∧ 0 ≤ value r ∧ value r ≤ bound)

/-- What is promised of two bounds: they are refused, or the result is a whole
number between them. -/
def WholeWithin (low high : ℚ) (answer : Except Fault Value) : Prop :=
  (∃ issue, answer = .error (refuse "rand" issue))
    ∨ ∃ (r : Float) (m : ℤ), answer = .ok (.number r) ∧ isFinite r = true ∧ value r = m
      ∧ low ≤ m ∧ m ≤ high

/-- A whole number that is drawn lies where it is promised. -/
theorem WholeWithin.bounds {low high : ℚ} {answer : Except Fault Value} {r : Float} {n : ℤ}
    (h : WholeWithin low high answer) (hanswer : answer = .ok (.number r)) (hvalue : value r = n) :
    low ≤ n ∧ (n : ℚ) ≤ high := by
  rcases h with ⟨issue, hissue⟩ | ⟨r', m, hr', -, hm, hlow, hhigh⟩
  · rw [hanswer] at hissue
    cases hissue
  · obtain rfl : r = r' := Value.number.inj (Except.ok.inj (hanswer.symm.trans hr'))
    rw [hvalue] at hm
    rw [hm]
    exact ⟨hlow, hhigh⟩

theorem cut_neg_iff {q : ℚ} : cut q < 0 ↔ q ≤ -1 := by
  unfold cut
  split
  · next hnonneg =>
      refine iff_of_false (not_lt.2 (Int.floor_nonneg.2 hnonneg)) ?_
      linarith
  · have hstep : ⌈q⌉ < 0 ↔ ⌈q⌉ ≤ -1 := by omega
    rw [hstep, Int.ceil_le, Int.cast_neg, Int.cast_one]

theorem fractionWithin_iff (hread : v.toFloat = .ok x) (hfinite : isFinite x = true)
    (draws : Draws) :
    FractionWithin (value x) (drawn [v] draws) ↔ ¬ (-1 < value x ∧ value x < 0) := by
  rcases lt_or_ge (cut (value x)) 0 with hcut | hcut
  · have hbelow := cut_neg_iff.1 hcut
    refine iff_of_true ⟨fun _ => ⟨_, drawn_one_refused hread hfinite hcut⟩, fun hnonneg => ?_⟩
      fun hgap => ?_
    · linarith
    · linarith [hgap.1]
  · have habove : -1 < value x := not_le.1 fun hbelow => not_lt.2 hcut (cut_neg_iff.2 hbelow)
    obtain ⟨r, hr, hdrawn, hleast, hmost⟩ := @drawn_one_within v x draws hread hfinite hcut
    rcases lt_or_ge (value x) 0 with hnegative | hnonneg
    · -- The bound is cut to zero, and so it is not refused.
      refine iff_of_false (fun hwithin => ?_) (not_not_intro ⟨habove, hnegative⟩)
      obtain ⟨issue, hissue⟩ := hwithin.1 hnegative
      rw [hr] at hissue
      cases hissue
    · refine iff_of_true ⟨fun hnegative => ?_, fun _ => ⟨r, hr, hdrawn, hleast, hmost.trans ?_⟩⟩
        fun hgap => ?_
      · exact absurd hnonneg (not_le.2 hnegative)
      · rw [cut, if_pos hnonneg]
        exact Int.floor_le _
      · exact absurd hnonneg (not_le.2 hgap.2)

theorem wholeWithin_iff (hread : v.toFloat = .ok x) (hfinite : isFinite x = true)
    (hread' : w.toFloat = .ok y) (hfinite' : isFinite y = true) :
    (∀ draws, WholeWithin (value x) (value y) (drawn [v, w] draws))
      ↔ cut (value y) < cut (value x) ∨ (value x ≤ cut (value x) ∧ cut (value y) ≤ value y) := by
  rcases lt_or_ge (cut (value y)) (cut (value x)) with hcut | hcut
  · exact iff_of_true
      (fun draws => .inl ⟨_, drawn_two_refused hread hfinite hread' hfinite' hcut⟩) (.inl hcut)
  · rw [or_iff_right (not_lt.2 hcut)]
    constructor
    · intro hall
      -- The dice may fall on either end.
      have hend : ∀ (dice : Dice) (n : Int), Representable n →
          dice.pick 0 (cut (value x)) (cut (value y)) = n → value x ≤ n ∧ n ≤ value y := by
        intro dice n hn hpick
        obtain ⟨r, hr, hvalue⟩ :=
          @drawn_two_of_pick v w x y ⟨dice, []⟩ hread hfinite hread' hfinite' n hcut hpick hn
        exact (hall ⟨dice, []⟩).bounds hr hvalue
      exact ⟨(hend .lowest _ (representable_cut hfinite) rfl).1,
        (hend .highest _ (representable_cut hfinite') rfl).2⟩
    · rintro ⟨hinward, hinward'⟩ draws
      obtain ⟨r, m, hr, hdrawn, hm, hleast, hmost⟩ :=
        @drawn_two_within v w x y draws hread hfinite hread' hfinite' hcut
      exact .inr ⟨r, m, hr, hdrawn, hm, hinward.trans (Int.cast_le.2 hleast),
        (Int.cast_le.2 hmost).trans hinward'⟩

/-- Random results are finite and lie where they should. Without bounds that is
always so. One bound breaks the promise when it lies between minus one and zero,
for it is cut to zero and not refused. Two bounds keep it when they are refused,
and else just when cutting moves neither outward. -/
theorem rand_within_iff (hread : v.toFloat = .ok x) (hfinite : isFinite x = true)
    (hread' : w.toFloat = .ok y) (hfinite' : isFinite y = true) :
    (∀ draws, ∃ r, drawn [] draws = .ok (.number r) ∧ isFinite r = true
        ∧ 0 ≤ value r ∧ value r ≤ 1)
      ∧ (∀ draws, FractionWithin (value x) (drawn [v] draws) ↔ ¬ (-1 < value x ∧ value x < 0))
      ∧ ((∀ draws, WholeWithin (value x) (value y) (drawn [v, w] draws))
        ↔ cut (value y) < cut (value x)
          ∨ (value x ≤ cut (value x) ∧ cut (value y) ≤ value y)) :=
  ⟨drawn_nil, fractionWithin_iff hread hfinite, wholeWithin_iff hread hfinite hread' hfinite'⟩

/-- A die falls on one of its faces. -/
theorem rand_within_die :
    value 1.0 = 1 ∧ value 6.0 = 6
      ∧ ∀ draws, WholeWithin 1 6 (drawn [.number 1.0, .number 6.0] draws) := by
  have hone : value 1.0 = 1 := by
    rw [@value_halves 1.0 2 (by decide +kernel)]
    norm_num
  have hsix : value 6.0 = 6 := by
    rw [@value_halves 6.0 12 (by decide +kernel)]
    norm_num
  have hinward : cut 6 < cut 1 ∨ ((1 : ℚ) ≤ cut 1 ∧ (cut 6 : ℚ) ≤ 6) := by
    right
    norm_num [cut]
  obtain ⟨-, -, hwithin⟩ := @rand_within_iff (.number 1.0) (.number 6.0) 1.0 6.0 rfl
    (by decide +kernel) rfl (by decide +kernel)
  rw [hone, hsix] at hwithin
  exact ⟨hone, hsix, hwithin.2 hinward⟩

/-- Two bounds with a fraction may be left on the lower side, and a bound
above minus one is not refused. -/
theorem rand_outside :
    ¬ WholeWithin (value 2.5) (value 3.5) (drawn [.number 2.5, .number 3.5] ⟨.lowest, []⟩)
      ∧ ¬ FractionWithin (value (-0.5)) (drawn [.number (-0.5)] ⟨.lowest, []⟩) := by
  have hlow : value 2.5 = 5 / 2 := @value_halves 2.5 5 (by decide +kernel)
  have hhigh : value 3.5 = 7 / 2 := @value_halves 3.5 7 (by decide +kernel)
  have hnegative : value (-0.5) = -(1 / 2) := by
    unfold value
    rw [show ofFloat (-0.5) = .finite true half by decide +kernel, toRat, half_div_unit]
  constructor
  · intro hwithin
    have hcut : cut (value 2.5) = 2 := by
      rw [hlow]
      norm_num [cut]
    have hcut' : cut (value 3.5) = 3 := by
      rw [hhigh]
      norm_num [cut]
    have hordered : cut (value 2.5) ≤ cut (value 3.5) := by
      rw [hcut, hcut']
      decide
    have hfinite : isFinite 2.5 = true := by decide +kernel
    have hfinite' : isFinite 3.5 = true := by decide +kernel
    obtain ⟨r, hr, hvalue⟩ := @drawn_two_of_pick (.number 2.5) (.number 3.5) 2.5 3.5
      ⟨.lowest, []⟩ rfl hfinite rfl hfinite' (cut (value 2.5)) hordered rfl
      (representable_cut hfinite)
    have hleast := (hwithin.bounds hr hvalue).1
    rw [hcut, hlow] at hleast
    norm_num at hleast
  · rw [fractionWithin_iff rfl (by decide +kernel), hnegative]
    norm_num

end UnitCalc.Numeric
