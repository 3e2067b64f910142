/-
Blanks around a number.

A blank continues no numeral: whatever numeral a text begins with, blanks behind
the text are left over with the rest of it (`Numeral.longest?_blanks`). So
blanks on either side do not matter to whether a text is a number, and a literal
that is trimmed is a number exactly when what was collected of it is one
(`isNumberText_trim`).

It is seen of one character behind the text, reader by reader: the sign, the
mantissa and the power are taken from the same front, and the character is left
over (`StopsNumeral` lists what each of them would have taken). More blanks
follow by induction.

A scan keeps asking about its buffer before anything is trimmed;
`Proofs/Scan/Abreast` and `Proofs/Scan/Advancing` go from the one to the other
with these.
-/
import UnitCalc.Proofs.Quantity.Reading

namespace UnitCalc

open Text

-- ================================================================== blanks

/-- A character that is no part of any numeral. -/
def StopsNumeral (c : Char) : Prop :=
  isDigit c = false ∧ c ≠ '.' ∧ c ≠ '+' ∧ c ≠ '-' ∧ (c == 'e' || c == 'E') = false

/-- Each part is a comparison. -/
instance (c : Char) : Decidable (StopsNumeral c) :=
  inferInstanceAs (Decidable (_ ∧ _ ∧ _ ∧ _ ∧ _))

theorem stopsNumeral_of_isBlank {c : Char} (h : isBlank c = true) : StopsNumeral c :=
  of_isBlank h (by decide +kernel)

-- ================================================================ numerals

namespace Numeral

variable {c : Char}

theorem takeSign_snoc (hc : StopsNumeral c) (cs : List Char) :
    takeSign (cs ++ [c]) = ((takeSign cs).1, (takeSign cs).2 ++ [c]) := by
  obtain ⟨-, -, hplus, hminus, -⟩ := hc
  unfold takeSign
  cases cs with
  | nil =>
      simp only [List.nil_append]
      split <;> simp_all
  | cons d cs =>
      simp only [List.cons_append]
      split <;> split <;> simp_all

/-- Digits end before a character that is none. -/
theorem takeWhile_digits_snoc (hc : isDigit c = false) (cs : List Char) :
    (cs ++ [c]).takeWhile isDigit = cs.takeWhile isDigit
      ∧ (cs ++ [c]).dropWhile isDigit = cs.dropWhile isDigit ++ [c] := by
  induction cs with
  | nil => simp [hc]
  | cons d cs ih =>
      cases hd : isDigit d with
      | true => simp [hd, ih]
      | false => simp [hd]

theorem takeMantissa?_snoc (hc : StopsNumeral c) (cs : List Char) :
    takeMantissa? (cs ++ [c])
      = (takeMantissa? cs).map fun parts => (parts.1, parts.2.1, parts.2.2 ++ [c]) := by
  obtain ⟨hdigit, hpoint, -⟩ := hc
  obtain ⟨htake, hdrop⟩ := takeWhile_digits_snoc hdigit cs
  unfold takeMantissa?
  simp only [htake, hdrop]
  generalize cs.takeWhile isDigit = whole
  -- Behind the digits there is nothing, a point with digits behind it, or something else.
  cases cs.dropWhile isDigit with
  | nil =>
      simp only [List.nil_append]
      split
      · simp_all
      · split <;> rfl
  | cons d behind =>
      obtain ⟨htake', hdrop'⟩ := takeWhile_digits_snoc hdigit behind
      by_cases hd : d = '.'
      · subst hd
        simp only [List.cons_append, htake', hdrop']
        split <;> rfl
      · simp only [List.cons_append]
        split <;> split <;> simp_all

theorem takeExponent_snoc (hc : StopsNumeral c) (cs : List Char) :
    takeExponent (cs ++ [c]) = ((takeExponent cs).1, (takeExponent cs).2 ++ [c]) := by
  have hmark : (c == 'e' || c == 'E') = false := hc.2.2.2.2
  cases cs with
  | nil => simp [takeExponent, hmark]
  | cons mark behind =>
      obtain ⟨htake, hdrop⟩ := takeWhile_digits_snoc hc.1 (takeSign behind).2
      simp only [takeExponent, List.cons_append, takeSign_snoc hc, htake, hdrop]
      split
      · split <;> rfl
      · rfl

/-- What stops every numeral is left over. -/
theorem longest?_snoc (hc : StopsNumeral c) (cs : List Char) :
    longest? (cs ++ [c]) = (longest? cs).map fun parts => (parts.1, parts.2 ++ [c]) := by
  unfold longest?
  simp only [takeSign_snoc hc, takeMantissa?_snoc hc]
  cases takeMantissa? (takeSign cs).2 with
  | none => rfl
  | some parts => simp only [Option.map_some, takeExponent_snoc hc]

/-- Blanks behind a text go on with no numeral of it. -/
theorem longest?_blanks {trail : List Char} (htrail : allBlank trail = true) (cs : List Char) :
    longest? (cs ++ trail)
      = (longest? cs).map fun parts => (parts.1, parts.2 ++ trail) := by
  induction trail generalizing cs with
  | nil => simp
  | cons c trail ih =>
      rw [allBlank_cons, Bool.and_eq_true] at htrail
      rw [List.append_cons, ih htrail.2, longest?_snoc (stopsNumeral_of_isBlank htrail.1)]
      cases longest? cs <;> simp

end Numeral

-- ================================================================= numbers

/-- No number is blank. -/
theorem not_allBlank_of_isNumberText {cs : List Char} (h : Quantity.isNumberText cs = true) :
    allBlank cs = false := by
  rw [Bool.eq_false_iff]
  intro hblank
  rw [isNumberText_of_trimStart (trimStart_of_allBlank hblank)] at h
  exact absurd h (by decide)

/-- A text is a number when blanks are left of it behind its numeral. -/
theorem isNumberText_iff {cs : List Char} :
    Quantity.isNumberText cs = true
      ↔ ∃ parts, Numeral.longest? (trimStart cs) = some parts ∧ allBlank parts.2 = true := by
  constructor
  · intro h
    obtain ⟨numeral, rest, hlongest, hrest⟩ := longest?_of_isNumberText h
    exact ⟨_, hlongest, List.all_eq_true.2 hrest⟩
  · rintro ⟨⟨numeral, rest⟩, hlongest, hrest⟩
    unfold Quantity.isNumberText Quantity.split?
    simp only [hlongest, trim_of_allBlank hrest]
    rfl

/-- Blanks behind a text do not matter either. -/
theorem isNumberText_blanks {trail : List Char} (htrail : allBlank trail = true)
    (cs : List Char) : Quantity.isNumberText (cs ++ trail) = Quantity.isNumberText cs := by
  cases hblank : allBlank cs with
  | true =>
      have hall : allBlank (cs ++ trail) = true := by
        rw [allBlank_append, hblank, htrail, Bool.and_self]
      -- Trimming takes the blanks as well if there is nothing else.
      rw [isNumberText_of_trimStart (trimStart_of_allBlank hblank),
        isNumberText_of_trimStart (trimStart_of_allBlank hall)]
  | false =>
      rw [Bool.eq_iff_iff, isNumberText_iff, isNumberText_iff, trimStart_append hblank,
        Numeral.longest?_blanks htrail]
      cases Numeral.longest? (trimStart cs) with
      | none => simp
      | some parts => simp [allBlank_append, htrail]

theorem isNumberText_snoc_blank {c : Char} (hc : isBlank c = true) (cs : List Char) :
    Quantity.isNumberText (cs ++ [c]) = Quantity.isNumberText cs :=
  isNumberText_blanks ((allBlank_singleton c).trans hc) cs

/-- A literal that is trimmed stays what it is. -/
theorem isNumberText_trim (cs : List Char) :
    Quantity.isNumberText (trim cs) = Quantity.isNumberText cs := by
  obtain ⟨lead, trail, hparts, hlead, htrail, -⟩ := trim_parts cs
  have hstart : trimStart cs = trimStart (trim cs ++ trail) := by
    generalize trim cs = text at hparts
    rw [hparts, List.append_assoc, trimStart_leading (List.all_eq_true.2 hlead)]
  rw [isNumberText_of_trimStart hstart, ← isNumberText_of_trimStart rfl,
    isNumberText_blanks (List.all_eq_true.2 htrail)]

end UnitCalc
