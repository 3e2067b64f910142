/-
What is read of spelled numbers.

A number in ASCII is a numeral (`IsNumber.isText`), so it is read whole, up to
what cannot continue it (`IsNumber.longest?`), and alone it is a number and
nothing else. All of this is what is known of numerals of any script
(`Proofs/Decimal/Numeral`), since the digits of ASCII are digits.

The other direction is all that a scan needs of numbers it does not know: what
is read as a numeral ends in a digit or in the point (`Numeral.longest?_cuts`),
so no other character behind a number leaves it a number (`isNumberText_snoc`).
A scan that collects a literal asks again at every character whether it has a
number in hand; by this it can answer only where a digit, a point or a blank has
come last.
-/
import Mathlib.Data.List.Basic
import UnitCalc.Proofs.Decimal.Numeral
import UnitCalc.Proofs.Text.Trimming

namespace UnitCalc

open Text

-- ======================================================= numbers in ASCII

theorem IsDigits.isRun {d : List Char} (h : IsDigits d) : Numeral.IsRun d :=
  ⟨h.1, fun c hc => isDigit_of_isAsciiDigit (h.2 c hc)⟩

theorem IsMantissa.written {m : List Char} (h : IsMantissa m) :
    ∃ w f, Numeral.MantissaWritten w f m := by
  cases h with
  | whole hw => exact ⟨m, [], .whole hw.isRun⟩
  | pointed hw hf => exact ⟨_, _, .pointed hw.isRun fun c hc => isDigit_of_isAsciiDigit (hf c hc)⟩
  | point hf => exact ⟨[], _, .point hf.isRun⟩

theorem IsExponent.written {x : List Char} (h : IsExponent x) :
    ∃ exponent, Numeral.PowerWritten exponent x := by
  cases h with
  | none => exact ⟨0, .none⟩
  | power hmark hs hd => exact ⟨_, .power hmark hs hd.isRun⟩

/-- A number in ASCII is a numeral. -/
theorem IsNumber.isText {n : List Char} (h : IsNumber n) : Numeral.IsText n := by
  obtain ⟨hs, hm, hx⟩ := h
  obtain ⟨w, f, hmantissa⟩ := hm.written
  obtain ⟨exponent, hpower⟩ := hx.written
  exact ⟨_, .intro hs hmantissa hpower⟩

/-- A spelled number is read whole, up to what cannot continue it. -/
theorem IsNumber.longest? {n rest : List Char} (hn : IsNumber n) (hrest : StopsNumber rest) :
    ∃ numeral, Numeral.longest? (n ++ rest) = some (numeral, rest) := by
  obtain ⟨numeral, hwritten⟩ := hn.isText
  exact ⟨numeral, hwritten.longest?_append hrest⟩

/-- A number begins with a character that is not blank. -/
theorem IsNumber.head {n : List Char} (hn : IsNumber n) :
    ∃ c tail, n = c :: tail ∧ isBlank c = false := by
  obtain ⟨numeral, hwritten⟩ := hn.isText
  obtain ⟨c, tail, rfl⟩ := List.exists_cons_of_ne_nil hwritten.ne_nil
  exact ⟨c, tail, rfl, (hwritten.plain c List.mem_cons_self).1⟩

-- ======================================================== numerals alone

/-- Blanks in front of a text do not make a number of it. -/
theorem isNumberText_of_trimStart {cs ds : List Char} (h : trimStart cs = ds) :
    Quantity.isNumberText cs = Quantity.isNumberText ds := by
  subst h
  unfold Quantity.isNumberText Quantity.split?
  rw [trimStart_trimStart]

namespace Quantity

variable {n : List Char} {numeral : Numeral}

/-- Blanks end where a numeral begins. -/
theorem trimStart_numeral (h : numeral.WrittenAs n) {lead : List Char}
    (hlead : allBlank lead = true) (rest : List Char) :
    trimStart (lead ++ (n ++ rest)) = n ++ rest := by
  obtain ⟨c, more, rfl⟩ := List.exists_cons_of_ne_nil h.ne_nil
  rw [trimStart_leading hlead]
  exact trimStart_eq_self (h.plain c List.mem_cons_self).1

/-- A numeral alone has nothing behind it. -/
theorem split?_alone (h : numeral.WrittenAs n) : split? n = some (numeral, []) := by
  have hstart : trimStart ([] ++ (n ++ [])) = n ++ [] := trimStart_numeral h rfl []
  rw [List.nil_append, List.append_nil] at hstart
  unfold split?
  rw [hstart, h.longest?]
  rfl

/-- A numeral is a number and nothing else. -/
theorem isNumberText_of_writtenAs (h : numeral.WrittenAs n) : isNumberText n = true := by
  unfold isNumberText
  rw [split?_alone h]

end Quantity

theorem IsNumber.isNumberText {n : List Char} (hn : IsNumber n) :
    Quantity.isNumberText n = true := by
  obtain ⟨numeral, hwritten⟩ := hn.isText
  exact Quantity.isNumberText_of_writtenAs hwritten

-- ================================================= where a numeral ends

/-- A character that can end a numeral. -/
def EndsNumeral (c : Char) : Prop :=
  isDigit c = true ∨ c = '.'

/-- Whether a text is cut right behind a character that can end a
numeral. -/
def CutsNumeral (cs rest : List Char) : Prop :=
  ∃ taken c, cs = taken ++ c :: rest ∧ EndsNumeral c

namespace Numeral

variable {cs rest : List Char}

/-- A mantissa ends in a digit or in the point. -/
theorem MantissaWritten.last {w f m : List Char} (h : MantissaWritten w f m) :
    ∀ c ∈ m.getLast?, EndsNumeral c := by
  intro c hc
  cases h with
  | whole hw => exact Or.inl (hw.2 c (List.mem_of_getLast? hc))
  | pointed hw hf =>
      rw [List.getLast?_append_of_ne_nil _ (List.cons_ne_nil _ _)] at hc
      rcases List.mem_cons.1 (List.mem_of_getLast? hc) with rfl | hmem
      · exact Or.inr rfl
      · exact Or.inl (hf c hmem)
  | point hf =>
      rcases List.mem_cons.1 (List.mem_of_getLast? hc) with rfl | hmem
      · exact Or.inr rfl
      · exact Or.inl (hf.2 c hmem)

/-- A numeral ends where its mantissa does, or with the digits of a power. -/
theorem WrittenAs.last {n : Numeral} (h : n.WrittenAs cs) : ∀ c ∈ cs.getLast?, EndsNumeral c := by
  obtain ⟨hs, hm, hx⟩ := h
  rename_i s w f m x exponent
  intro c hc
  -- Without a power it is the mantissa that comes last, and it is not empty.
  cases hx with
  | none =>
      rw [List.append_nil, List.getLast?_append_of_ne_nil _ hm.ne_nil] at hc
      exact hm.last c hc
  | @power mark g d hmark hg hd =>
      rw [← List.cons_append, ← List.append_assoc, ← List.append_assoc,
        List.getLast?_append_of_ne_nil _ hd.1] at hc
      exact Or.inl (hd.2 c (List.mem_of_getLast? hc))

/-- What is read as a numeral ends in a digit or in the point. -/
theorem longest?_cuts {n : Numeral} (h : longest? cs = some (n, rest)) : CutsNumeral cs rest := by
  obtain ⟨taken, rfl, hwritten⟩ := longest?_written h
  rcases List.eq_nil_or_concat taken with hnil | ⟨front, c, rfl⟩
  · exact absurd hnil hwritten.ne_nil
  · rw [List.concat_eq_append] at hwritten ⊢
    exact ⟨front, c, by simp, hwritten.last c List.getLast?_concat⟩

end Numeral

/-- A number is a numeral with blanks around it. -/
theorem longest?_of_isNumberText {cs : List Char} (h : Quantity.isNumberText cs = true) :
    ∃ numeral rest, Numeral.longest? (trimStart cs) = some (numeral, rest)
      ∧ ∀ c ∈ rest, isBlank c = true := by
  unfold Quantity.isNumberText Quantity.split? at h
  cases hlongest : Numeral.longest? (trimStart cs) with
  | none => simp [hlongest] at h
  | some parts =>
      obtain ⟨numeral, rest⟩ := parts
      refine ⟨numeral, rest, rfl, isBlank_of_trim_eq_nil ?_⟩
      cases htrim : trim rest with
      | nil => rfl
      | cons c suffix =>
          simp only [hlongest, htrim] at h
          split at h
          · next heq =>
              split at heq
              · cases heq
              · simp at heq
          · cases h

/-- Behind a text only a blank, a digit or a point makes it a number. -/
theorem isNumberText_snoc {cs : List Char} {c : Char}
    (h : Quantity.isNumberText (cs ++ [c]) = true) : isBlank c = true ∨ EndsNumeral c := by
  obtain ⟨numeral, rest, hlongest, hrest⟩ := longest?_of_isNumberText h
  obtain ⟨taken, d, hcut, hd⟩ := Numeral.longest?_cuts hlongest
  have hlast : (cs ++ [c]).getLast? = some c := List.getLast?_concat
  rw [← List.takeWhile_append_dropWhile (p := isBlank) (l := cs ++ [c])] at hlast
  change (_ ++ trimStart (cs ++ [c])).getLast? = some c at hlast
  rw [hcut, ← List.append_assoc] at hlast
  -- The last character is the last of what is left over, or of the numeral if nothing is.
  rcases List.eq_nil_or_concat rest with rfl | ⟨r, c', rfl⟩
  · rw [List.getLast?_concat] at hlast
    obtain rfl := Option.some.inj hlast
    exact Or.inr hd
  · rw [List.concat_eq_append, ← List.cons_append, ← List.append_assoc,
      List.getLast?_concat] at hlast
    obtain rfl := Option.some.inj hlast
    exact Or.inl (hrest c' (by simp))

end UnitCalc
