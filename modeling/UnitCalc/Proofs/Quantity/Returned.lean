/-
Written numbers that are read again.

The text of a magnitude spells a mantissa and an exponent (`Spells`): that is
what it is read as, behind either sign and before whatever cannot continue it.
What a layout does with the digits of a decimal, which is to drop zeros, to add
some and to place the point, leaves its float as it was
(`Layout.spells_magnitudeText`). So a finite float is read again from its text,
with the label behind it.

# Digits and their value

What is read has another mantissa and exponent than what was written: the zeros
at the end are gone, and others may have come. The mantissa changes by a power
of ten and the exponent by as many places, and by such a shift a decimal keeps
its float (`Decimal.toFloat_shift`). Each place of the point is a lemma of its
own: before, behind and among the digits (`Layout.spells_placed`), and behind
the first one with a power of ten (`Layout.spells_powered`).

# Whole numbers

A float without a fraction is written as an integer. Its digits are exact, so
there is nothing shortest about them, and the number read is the float itself;
except that minus zero is written as zero, which is equal to it but not the same
(`whole_returned`).

# Shortest decimals

Any other float is written by its shortest decimal, whose float is the one it
was made of (`Decimal.toFloat_shortest`).
-/
import UnitCalc.Proofs.Decimal.Scale
import UnitCalc.Proofs.Quantity.Written

namespace UnitCalc

open Text

-- ================================================================== digits

theorem digitsValue_eq {ds : List Char} (h : ∀ c ∈ ds, isAsciiDigit c = true) :
    digitsValue ds = Nat.ofDigitChars 10 ds 0 := by
  rw [Nat.ofDigitChars_eq_foldl]
  refine List.foldl_ext _ _ _ fun n c hc => ?_
  unfold digitValue?
  rw [if_pos (h c hc)]
  rfl

theorem isAsciiDigit_zeros (n : Nat) : ∀ c ∈ List.replicate n '0', isAsciiDigit c = true := by
  intro c hc
  rw [(List.mem_replicate.1 hc).2]
  decide

/-- Zeros in front count for nothing. -/
theorem digitsValue_zeros_append (n : Nat) {ds : List Char} (h : ∀ c ∈ ds, isAsciiDigit c = true) :
    digitsValue (List.replicate n '0' ++ ds) = digitsValue ds := by
  rw [digitsValue_eq h, digitsValue_eq (List.forall_mem_append.2 ⟨isAsciiDigit_zeros n, h⟩),
    Nat.ofDigitChars_append, Nat.ofDigitChars_replicate_zero, Nat.mul_zero]

/-- Zeros behind count for a power of ten. -/
theorem digitsValue_append_zeros {ds : List Char} (h : ∀ c ∈ ds, isAsciiDigit c = true) (n : Nat) :
    digitsValue (ds ++ List.replicate n '0') = Nat.pow 10 n * digitsValue ds := by
  rw [digitsValue_eq h, digitsValue_eq (List.forall_mem_append.2 ⟨h, isAsciiDigit_zeros n⟩),
    Nat.ofDigitChars_append, Nat.ofDigitChars_replicate_zero]
  rfl

theorem digitsValue_toDigits (n : Nat) : digitsValue (Nat.toDigits 10 n) = n := by
  rw [digitsValue_eq (isDigits_toDigits n).2, Nat.ofDigitChars_ten_toDigits]

-- ================================================================ numerals

namespace Numeral

theorem takeSign_of_digit {cs : List Char} (hhead : ∀ c ∈ cs.head?, isAsciiDigit c = true) :
    takeSign cs = (false, cs) :=
  takeSign_of_head .none (ne_sign_of_head fun c hc => Or.inl (isDigit_of_isAsciiDigit (hhead c hc)))

/-- Without a sign a numeral is read part by part. -/
theorem longest?_parts {cs between rest whole fraction : List Char} {exponent : Int}
    (hhead : ∀ c ∈ cs.head?, isAsciiDigit c = true)
    (hmantissa : takeMantissa? cs = some (whole, fraction, between))
    (hexponent : takeExponent between = (exponent, rest)) :
    longest? cs = some (⟨false, whole, fraction, exponent⟩, rest) := by
  unfold longest?
  simp only [takeSign_of_digit hhead, hmantissa, hexponent]

/-- A minus only negates what is read behind it. -/
theorem longest?_minus {cs rest : List Char} {n : Numeral}
    (hhead : ∀ c ∈ cs.head?, isAsciiDigit c = true) (h : longest? cs = some (n, rest)) :
    longest? ('-' :: cs) = some ({ n with negative := true }, rest) := by
  have hminus : takeSign ('-' :: cs) = (true, cs) := rfl
  -- A magnitude begins with a digit, so no sign is taken from it, and behind the minus all is the
  -- same.
  unfold longest? at h ⊢
  rw [takeSign_of_digit hhead] at h
  rw [hminus]
  dsimp only at h ⊢
  split at h
  · cases h
  · cases h
    rfl

end Numeral

-- ================================================================ spellings

/-- A text that is read as certain digits before the point and behind it. -/
structure SpellsMantissa (cs whole fraction : List Char) : Prop where
  head : ∃ c more, cs = c :: more ∧ isAsciiDigit c = true
  reads : ∀ rest, (∀ c ∈ rest.head?, isDigit c = false ∧ c ≠ '.') →
    Numeral.takeMantissa? (cs ++ rest) = some (whole, fraction, rest)

/-- A text that is read as a certain mantissa and exponent. -/
structure Spells (cs : List Char) (mantissa : Nat) (exponent : Int) : Prop where
  head : ∃ c more, cs = c :: more ∧ isAsciiDigit c = true
  reads : ∀ rest, StopsNumber rest → ∃ numeral,
    Numeral.longest? (cs ++ rest) = some (numeral, rest)
      ∧ numeral.toDecimal = ⟨false, mantissa, exponent⟩

/-- A text that begins with a digit does so whatever stands behind it. -/
theorem digit_head_append {cs : List Char} (h : ∃ c more, cs = c :: more ∧ isAsciiDigit c = true)
    (rest : List Char) : ∀ c ∈ (cs ++ rest).head?, isAsciiDigit c = true := by
  obtain ⟨c, more, rfl, hc⟩ := h
  rintro _ ⟨⟩
  exact hc

theorem IsDigits.head {ds : List Char} (h : IsDigits ds) :
    ∃ c more, ds = c :: more ∧ isAsciiDigit c = true := by
  obtain ⟨c, more, rfl⟩ := List.exists_cons_of_ne_nil h.1
  exact ⟨c, more, rfl, h.2 c List.mem_cons_self⟩

theorem SpellsMantissa.whole {w : List Char} (hw : IsDigits w) : SpellsMantissa w w [] :=
  ⟨hw.head, fun _ hrest => (Numeral.MantissaWritten.whole hw.isRun).takeMantissa? hrest⟩

theorem SpellsMantissa.pointed {w f : List Char} (hw : IsDigits w)
    (hf : ∀ c ∈ f, isAsciiDigit c = true) : SpellsMantissa (w ++ '.' :: f) w f := by
  constructor
  · obtain ⟨c, more, rfl, hc⟩ := hw.head
    exact ⟨c, more ++ '.' :: f, rfl, hc⟩
  · have hfraction : ∀ c ∈ f, isDigit c = true := fun c hc => isDigit_of_isAsciiDigit (hf c hc)
    exact fun _ hrest => (Numeral.MantissaWritten.pointed hw.isRun hfraction).takeMantissa? hrest

section

variable {m w f : List Char}

/-- Without a power of ten. -/
theorem SpellsMantissa.spells (h : SpellsMantissa m w f) :
    Spells m (digitsValue (w ++ f)) (-f.length) := by
  refine ⟨h.head, fun rest hrest => ⟨_, Numeral.longest?_parts (digit_head_append h.head rest)
    (h.reads rest hrest.1) (Numeral.takeExponent_of_stops hrest.2), ?_⟩⟩
  unfold Numeral.toDecimal
  rw [Int.zero_sub]

/-- With a power of ten. -/
theorem SpellsMantissa.spells_power (h : SpellsMantissa m w f) (negative : Bool) {d : List Char}
    (hd : IsDigits d) :
    Spells (m ++ 'e' :: (if negative then '-' else '+') :: d) (digitsValue (w ++ f))
      ((if negative then -(digitsValue d : Int) else digitsValue d) - f.length) := by
  constructor
  · obtain ⟨c, more, rfl, hc⟩ := h.head
    exact ⟨c, _, rfl, hc⟩
  · have hsign : IsSign [if negative then '-' else '+'] := by
      cases negative
      · exact .plus
      · exact .minus
    have hpower := Numeral.PowerWritten.power (Or.inl rfl) hsign hd.isRun
    intro rest hrest
    rw [List.append_assoc]
    refine ⟨_, Numeral.longest?_parts (digit_head_append h.head _)
      (h.reads _ (hpower.head hrest.1)) (hpower.takeExponent hrest), ?_⟩
    cases negative <;> rfl

end

/-- A spelled magnitude is read behind either sign. -/
theorem Spells.longest? {cs rest : List Char} {mantissa : Nat} {exponent : Int}
    (h : Spells cs mantissa exponent) (negative : Bool) (hrest : StopsNumber rest) :
    ∃ numeral, Numeral.longest? ((if negative then ['-'] else []) ++ (cs ++ rest))
        = some (numeral, rest) ∧ numeral.toDecimal = ⟨negative, mantissa, exponent⟩ := by
  obtain ⟨numeral, hlongest, hdecimal⟩ := h.reads rest hrest
  cases negative with
  | false => exact ⟨numeral, hlongest, hdecimal⟩
  | true =>
      refine ⟨{ numeral with negative := true },
        Numeral.longest?_minus (digit_head_append h.head rest) hlongest, ?_⟩
      unfold Numeral.toDecimal at hdecimal ⊢
      simp_all

-- ================================================================== layouts

namespace Layout

/-- What is dropped at the end of a run of digits are zeros. -/
theorem dropTrailingZeros_append {digits : List Char} (h : digits ≠ []) :
    ∃ zeros, digits = dropTrailingZeros digits ++ List.replicate zeros '0' := by
  have hreverse := List.takeWhile_append_dropWhile (p := (· == '0')) (l := digits.reverse)
  have hzeros : ∀ c ∈ (digits.reverse.takeWhile (· == '0')).reverse, c = '0' := by
    intro c hc
    simpa using List.mem_takeWhile_imp (List.mem_reverse.1 hc)
  have hdigits : digits = (digits.reverse.dropWhile (· == '0')).reverse
      ++ (digits.reverse.takeWhile (· == '0')).reverse := by
    rw [← List.reverse_append, hreverse, List.reverse_reverse]
  rw [List.eq_replicate_of_mem hzeros] at hdigits
  unfold dropTrailingZeros
  split
  · next hnil =>
      -- Of zeros alone the first is kept.
      rw [hnil, List.nil_append] at hdigits
      cases hcount : (digits.reverse.takeWhile (· == '0')).reverse.length with
      | zero =>
          rw [hcount] at hdigits
          exact absurd hdigits h
      | succ zeros =>
          rw [hcount] at hdigits
          exact ⟨zeros, by rw [hdigits]; rfl⟩
  · exact ⟨_, hdigits⟩

variable {digits : List Char}

/-- The point before all the digits. -/
theorem spells_pointBefore (hall : ∀ c ∈ digits, isAsciiDigit c = true) (zeros : Nat) :
    Spells ('0' :: '.' :: (List.replicate zeros '0' ++ digits)) (digitsValue digits)
      (-(zeros + digits.length : Nat)) := by
  have hspells := (SpellsMantissa.pointed (w := ['0']) ⟨by simp, isAsciiDigit_zeros 1⟩
    (List.forall_mem_append.2 ⟨isAsciiDigit_zeros zeros, hall⟩)).spells
  have hvalue : digitsValue (['0'] ++ (List.replicate zeros '0' ++ digits)) = digitsValue digits :=
    digitsValue_zeros_append (zeros + 1) hall
  rwa [hvalue, List.length_append, List.length_replicate] at hspells

/-- The point behind all the digits, and a zero behind it. -/
theorem spells_pointBehind (h : IsDigits digits) (zeros : Nat) :
    Spells (digits ++ List.replicate zeros '0' ++ ['.', '0'])
      (Nat.pow 10 (zeros + 1) * digitsValue digits) (-1) := by
  obtain ⟨hne, hall⟩ := h
  have hspells := (SpellsMantissa.pointed (w := digits ++ List.replicate zeros '0')
    ⟨by simp [hne], List.forall_mem_append.2 ⟨hall, isAsciiDigit_zeros zeros⟩⟩
    (isAsciiDigit_zeros 1)).spells
  have hvalue : digitsValue (digits ++ List.replicate zeros '0' ++ List.replicate 1 '0')
      = Nat.pow 10 (zeros + 1) * digitsValue digits := by
    rw [List.append_assoc, List.replicate_append_replicate, digitsValue_append_zeros hall]
  rwa [hvalue] at hspells

/-- The point between two digits. -/
theorem spells_pointAmong (h : IsDigits digits) {places : Nat} (hplaces : places ≠ 0) :
    Spells (digits.take places ++ '.' :: digits.drop places) (digitsValue digits)
      (-(digits.length - places : Nat)) := by
  obtain ⟨hne, hall⟩ := h
  have htake : IsDigits (digits.take places) := by
    refine ⟨?_, fun c hc => hall c (List.mem_of_mem_take hc)⟩
    rw [ne_eq, List.take_eq_nil_iff, not_or]
    exact ⟨hplaces, hne⟩
  have hdrop : ∀ c ∈ digits.drop places, isAsciiDigit c = true :=
    fun c hc => hall c (List.mem_of_mem_drop hc)
  have hspells := (SpellsMantissa.pointed htake hdrop).spells
  rwa [List.take_append_drop, List.length_drop] at hspells

/-- A point in place adds zeros at most. -/
theorem spells_placed (h : IsDigits digits) (point : Int) : ∃ zeros : Nat,
    Spells (placed digits point) (Nat.pow 10 zeros * digitsValue digits)
      (point - digits.length - zeros) := by
  have hnone : Nat.pow 10 0 * digitsValue digits = digitsValue digits := Nat.one_mul _
  unfold placed
  split
  · next hbefore =>
      refine ⟨0, ?_⟩
      have hexponent : point - digits.length - (0 : Nat)
          = -(point.natAbs + digits.length : Nat) := by omega
      rw [hnone, hexponent]
      exact spells_pointBefore h.2 point.natAbs
  · split
    · next hbehind =>
        refine ⟨point.natAbs - digits.length + 1, ?_⟩
        have hexponent : point - digits.length - (point.natAbs - digits.length + 1 : Nat)
            = -1 := by omega
        rw [hexponent]
        exact spells_pointBehind h (point.natAbs - digits.length)
    · next hamong =>
        refine ⟨0, ?_⟩
        have hexponent : point - digits.length - (0 : Nat)
            = -(digits.length - point.natAbs : Nat) := by omega
        rw [hnone, hexponent]
        exact spells_pointAmong h (by omega)

/-- A power of ten is that of the first digit. -/
theorem spells_powered (h : IsDigits digits) (width : Nat) (exponent : Int) :
    Spells (powered width digits exponent) (digitsValue digits)
      (exponent + 1 - digits.length) := by
  obtain ⟨hne, hall⟩ := h
  have hnumber := isDigits_toDigits exponent.natAbs
  unfold powered
  dsimp only
  generalize hpower : List.replicate (width - (Nat.toDigits 10 exponent.natAbs).length) '0'
    ++ Nat.toDigits 10 exponent.natAbs = power
  have hdigits : IsDigits power := by
    rw [← hpower]
    exact ⟨by simp [hnumber.1], List.forall_mem_append.2 ⟨isAsciiDigit_zeros _, hnumber.2⟩⟩
  have hvalue : digitsValue power = exponent.natAbs := by
    rw [← hpower, digitsValue_zeros_append _ hnumber.2, digitsValue_toDigits]
  have hsigned : (if decide (exponent < 0) then -(digitsValue power : Int) else digitsValue power)
      = exponent := by
    rw [hvalue]
    simp only [decide_eq_true_eq]
    omega
  split
  · next first second more =>
      rw [List.forall_mem_cons] at hall
      have hspells := (SpellsMantissa.pointed (w := [first]) ⟨by simp, by simpa using hall.1⟩
        hall.2).spells_power (decide (exponent < 0)) hdigits
      have hexponent : exponent - ((second :: more).length : Int)
          = exponent + 1 - ((first :: second :: more).length : Int) := by
        rw [List.length_cons (a := first)]
        omega
      rw [hsigned, hexponent] at hspells
      simp only [decide_eq_true_eq] at hspells
      exact hspells
  · next hshort =>
      have hone : digits.length = 1 := by
        rcases digits with _ | ⟨first, _ | ⟨second, more⟩⟩
        · exact absurd rfl hne
        · rfl
        · exact absurd rfl (hshort first second more)
      have hspells :=
        (SpellsMantissa.whole ⟨hne, hall⟩).spells_power (decide (exponent < 0)) hdigits
      have hexponent : exponent - (([] : List Char).length : Int)
          = exponent + 1 - digits.length := by
        rw [hone, List.length_nil]
        omega
      rw [hsigned, hexponent, List.append_nil] at hspells
      simpa only [decide_eq_true_eq] using hspells

/-- The text of a decimal spells one with the same float. -/
theorem spells_magnitudeText (layout : Layout) (d : Decimal) : ∃ mantissa exponent,
    Spells (layout.magnitudeText d) mantissa exponent
      ∧ ∀ negative, (⟨negative, mantissa, exponent⟩ : Decimal).toFloat
        = ({ d with negative } : Decimal).toFloat := by
  obtain ⟨zeros, hzeros⟩ := dropTrailingZeros_append (isDigits_toDigits d.mantissa).1
  have hkept := isDigits_dropTrailingZeros (isDigits_toDigits d.mantissa)
  have hmantissa : Nat.pow 10 zeros * digitsValue (dropTrailingZeros (Nat.toDigits 10 d.mantissa))
      = d.mantissa := by
    rw [← digitsValue_append_zeros hkept.2, ← hzeros, digitsValue_toDigits]
  have hlength := congrArg List.length hzeros
  rw [List.length_append, List.length_replicate] at hlength
  unfold magnitudeText
  dsimp only
  generalize dropTrailingZeros (Nat.toDigits 10 d.mantissa) = kept at *
  -- The decimal is the one of the digits that are kept, shifted by the zeros that were dropped.
  have hshift : ∀ negative, ({ d with negative } : Decimal)
      = Decimal.shift ⟨negative, digitsValue kept, zeros + d.exponent⟩ zeros := by
    intro negative
    unfold Decimal.shift
    dsimp only
    rw [hmantissa]
    congr 1
    omega
  split
  · obtain ⟨more, hspells⟩ := spells_placed hkept ((Nat.toDigits 10 d.mantissa).length + d.exponent)
    refine ⟨_, _, hspells, fun negative => ?_⟩
    have hmore : (⟨negative, Nat.pow 10 more * digitsValue kept,
          (Nat.toDigits 10 d.mantissa).length + d.exponent - kept.length - more⟩ : Decimal)
        = Decimal.shift ⟨negative, digitsValue kept, zeros + d.exponent⟩ more := by
      unfold Decimal.shift
      dsimp only
      congr 1
      omega
    rw [hmore, hshift, Decimal.toFloat_shift, Decimal.toFloat_shift]
  · refine ⟨_, _, spells_powered hkept _ _, fun negative => ?_⟩
    rw [hshift, Decimal.toFloat_shift]
    congr 2
    omega

end Layout

-- =============================================================== quantities

namespace Binary

/-- A finite float equals itself. -/
theorem beq_self_of_finite {x : Float} {negative : Bool} {quanta : Nat}
    (h : ofFloat x = .finite negative quanta) : (x == x) = true := by
  rw [Float.beq_self_iff]
  rintro rfl
  have hnan : ofFloat Float.nan = .nan := by decide
  rw [hnan] at h
  cases h

/-- The two zeros are equal. -/
theorem zero_beq_zero (negative negative' : Bool) :
    (nearestQuanta .toEven negative 0 1 == nearestQuanta .toEven negative' 0 1) = true := by
  cases negative <;> cases negative' <;> decide +kernel

end Binary

namespace Quantity

variable {x : Float}

/-- A whole number of ones is read again from its digits; no sign is written
of a zero. -/
theorem whole_returned {negative : Bool} {quanta : Nat}
    (h : Binary.ofFloat x = .finite negative quanta) (hwhole : quanta % Binary.unit = 0) :
    ∃ sign, (toString (if negative then -((quanta / Binary.unit : Nat) : Int)
          else (quanta / Binary.unit : Nat))).toList
        = (if sign then ['-'] else []) ++ Nat.toDigits 10 (quanta / Binary.unit)
      ∧ ((⟨sign, quanta / Binary.unit, 0⟩ : Decimal).toFloat == x) = true := by
  have hparts := Nat.div_add_mod quanta Binary.unit
  rw [hwhole, Nat.add_zero] at hparts
  generalize quanta / Binary.unit = whole at *
  have hreturned : (⟨negative, whole, 0⟩ : Decimal).toFloat = x := by
    rw [Decimal.toFloat_whole, hparts, ← Binary.eq_nearestQuanta .toEven h]
  have hsame := Binary.beq_self_of_finite h
  cases negative with
  | false =>
      refine ⟨false, ?_, by rw [hreturned]; exact hsame⟩
      rw [if_neg Bool.false_ne_true, Int.toString_eq_repr, Int.repr_eq_if,
        if_pos (Int.natCast_nonneg _), Int.toNat_natCast, Nat.toList_repr]
      rfl
  | true =>
      rw [if_pos rfl, Int.toString_eq_repr, Int.repr_eq_if]
      by_cases hzero : whole = 0
      · refine ⟨false, by rw [hzero]; rfl, ?_⟩
        rw [hzero, Nat.mul_zero] at hparts
        rw [Binary.eq_nearestQuanta .toEven h, hzero, ← hparts, Decimal.toFloat_whole, Nat.mul_zero]
        exact Binary.zero_beq_zero false true
      · refine ⟨true, ?_, by rw [hreturned]; exact hsame⟩
        rw [if_neg (by omega), String.toList_append, Nat.toList_repr, Int.neg_neg,
          Int.toNat_natCast]
        rfl

/-- A finite number is written with a sign and a magnitude that are read as
the number. -/
theorem written_spells (h : Binary.isFinite x = true) (unit : String) :
    ∃ sign cs mantissa exponent, Spells cs mantissa exponent
      ∧ (written x unit).toList = (if sign then ['-'] else []) ++ (cs ++ unit.toList)
      ∧ ((⟨sign, mantissa, exponent⟩ : Decimal).toFloat == x) = true := by
  unfold Binary.isFinite at h
  unfold written
  rw [String.toList_append]
  cases hx : Binary.ofFloat x with
  | infinite negative => simp [hx] at h
  | nan => simp [hx] at h
  | finite negative quanta =>
      dsimp only
      split
      · next hwhole =>
          obtain ⟨sign, htext, hequal⟩ := whole_returned hx hwhole
          have hspells := (SpellsMantissa.whole (isDigits_toDigits (quanta / Binary.unit))).spells
          rw [List.append_nil, digitsValue_toDigits] at hspells
          exact ⟨sign, _, _, _, hspells, by rw [htext, List.append_assoc], hequal⟩
      · next hpart =>
          have hquanta : quanta ≠ 0 := by
            rintro rfl
            exact hpart (Nat.zero_mod _)
          obtain ⟨mantissa, exponent, hspells, hsame⟩ :=
            Layout.standard.spells_magnitudeText (Decimal.shortest quanta)
          refine ⟨negative, _, mantissa, exponent, hspells, ?_, ?_⟩
          · unfold Value.ofFloatText Layout.floatText
            rw [hx, String.toList_ofList]
            dsimp only
            rw [if_neg hquanta, List.append_assoc]
          · rw [hsame, Decimal.toFloat_shortest hx]
            exact Binary.beq_self_of_finite hx

/-- A finite number with a unit is read again from its text: the unit is the
same, and the number is equal. So a unit of a registry is that of the text. -/
theorem written_returned (h : Binary.isFinite x = true) {unit : String}
    (hunit : ReadableLabel unit) :
    (∃ y, Quantity.read? (written x unit).toList = some ⟨y, unit⟩ ∧ (y == x) = true)
      ∧ ∀ r : UnitRegistry, r.isUnit unit = true →
        r.unitOf (.text (written x unit)) = .ok (some unit) := by
  constructor
  · obtain ⟨sign, cs, mantissa, exponent, hspells, htext, hequal⟩ := written_spells h unit
    obtain ⟨numeral, hlongest, hdecimal⟩ := hspells.longest? sign hunit.stopsNumber
    have hstart : trimStart ((if sign then ['-'] else []) ++ (cs ++ unit.toList))
        = (if sign then ['-'] else []) ++ (cs ++ unit.toList) := by
      cases sign with
      | true => exact trimStart_eq_self (by decide)
      | false =>
          obtain ⟨c, more, rfl, hc⟩ := hspells.head
          exact trimStart_eq_self
            (of_isAsciiDigit (p := fun c => isBlank c = false) hc (by decide))
    have hline : unit.toList.contains '\n' = false := by simpa using hunit.oneLine
    refine ⟨numeral.toFloat, ?_, ?_⟩
    · unfold read? split?
      rw [htext, hstart, hlongest]
      dsimp only
      rw [hunit.trimmed, hline]
      simp
    · unfold Numeral.toFloat
      rw [hdecimal]
      exact hequal
  · intro r hknown
    rw [UnitRegistry.unitOf_written hknown hunit, if_pos h]

/-- A length in millimeters that is written with a power of ten. -/
theorem written_returned_millimeters :
    written 2.5e-7 "mm" = "2.5e-07mm"
      ∧ (∃ y, Quantity.read? "2.5e-07mm".toList = some ⟨y, "mm"⟩ ∧ (y == 2.5e-7) = true)
      ∧ (UnitRegistry.standard (.number 96.0) "pt").unitOf (.text "2.5e-07mm")
        = .ok (some "mm") := by
  have htext : written 2.5e-7 "mm" = "2.5e-07mm" := by decide +kernel
  obtain ⟨hread, hunit⟩ := written_returned (by decide +kernel : Binary.isFinite 2.5e-7 = true)
    (.of_head rfl (by decide) (by decide) (by decide) : ReadableLabel "mm")
  rw [htext] at hread hunit
  exact ⟨htext, hread, hunit _ rfl⟩

end Quantity

end UnitCalc
