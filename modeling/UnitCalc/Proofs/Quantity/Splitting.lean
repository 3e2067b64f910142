/-
How a text is split into a number and a suffix.

`Quantity.Parts` says which ways there are to take a text apart, with blanks at
liberty to stand anywhere and no preference among numerals; the reader tries one
way only, the longest numeral. What is read is stated by both, and that nothing
is read by the ways alone (`Value.split?_text`).

# That one try is enough

The reader finds a way whenever there is one (`Quantity.split?_eq_none_iff`).
This rests on what keeps it from it: a line end with something on either side of
it. A longer numeral leaves less behind it, and what it leaves is an end of what
any shorter one leaves; so if there is such a line end behind the longest one,
there is one behind every other (`mem_trim_iff`). And if any numeral begins the
text, one is read that reaches at least as far (`Numeral.longest?_reaches`).

# Numbers

A text is a number if there is nothing behind the numeral but blanks. Then there
is only one numeral that could leave it so, and the text is a number exactly if
it is a numeral when it is trimmed (`Quantity.isNumberText_iff_isText`).
-/
import UnitCalc.Proofs.Quantity.Trailing

namespace UnitCalc

open Text

-- ============================================================ ways to split

namespace Quantity

/-- The ways to take a text apart into a numeral and a suffix on one line, with
blanks before, between and behind them. -/
inductive Parts : List Char → List Char → List Char → Prop
  | intro {lead n between s trail : List Char} (leads : allBlank lead = true)
      (parts : allBlank between = true) (trails : allBlank trail = true)
      (numeral : Numeral.IsText n) (line : '\n' ∉ s) :
      Parts n s (lead ++ (n ++ (between ++ (s ++ trail))))

variable {cs n s rest : List Char} {numeral : Numeral}

/-- A text is split at the longest numeral behind its blanks. -/
theorem split?_eq_some_iff : split? cs = some (numeral, s) ↔
    ∃ n, numeral.WrittenAs n ∧ Numeral.LongestIn n (trimStart cs) ∧ Parts n s cs
      ∧ trim s = s := by
  constructor
  · intro h
    unfold split? at h
    cases hlongest : Numeral.longest? (trimStart cs) with
    | none => simp [hlongest] at h
    | some parts =>
        obtain ⟨found, rest⟩ := parts
        simp only [hlongest] at h
        split at h
        · cases h
        · next hline =>
            simp only [Option.some.injEq, Prod.mk.injEq] at h
            obtain ⟨rfl, rfl⟩ := h
            obtain ⟨n, hcut, hwritten, hmost⟩ := Numeral.longest?_eq_some_iff.1 hlongest
            obtain ⟨between, trail, hrest, hbetween, htrail, -⟩ := trim_parts rest
            -- Put together again: the blanks in front, the numeral, and the three parts of what
            -- is trimmed.
            have hcs : cs = cs.takeWhile isBlank
                ++ (n ++ (between ++ (trim rest ++ trail))) := by
              rw [← List.append_assoc between, ← hrest, ← hcut]
              exact List.takeWhile_append_dropWhile.symm
            refine ⟨n, hwritten, hmost, ?_, trim_trim rest⟩
            rw [hcs]
            refine .intro ?_ (List.all_eq_true.2 hbetween) (List.all_eq_true.2 htrail)
              ⟨_, hwritten⟩ (by simpa using hline)
            exact List.all_eq_true.2 fun c hc => List.mem_takeWhile_imp hc
  · rintro ⟨n, hwritten, hmost, hparts, htrim⟩
    obtain ⟨hlead, hbetween, htrail, -, hline⟩ := hparts
    rename_i lead between trail
    rw [trimStart_numeral hwritten hlead] at hmost
    have hread := Numeral.longest?_eq_some_iff.2 ⟨n, rfl, hwritten, hmost⟩
    unfold split?
    rw [trimStart_numeral hwritten hlead, hread]
    simp only [trim_between hbetween htrail, htrim]
    rw [if_neg (by simpa using hline)]

/-- A text that is not split cannot be taken apart, whatever numeral is tried. -/
theorem split?_eq_none_iff : split? cs = none ↔ ∀ n s, ¬ Parts n s cs := by
  constructor
  · intro h n s hparts
    obtain ⟨hlead, hbetween, htrail, ⟨numeral, hwritten⟩, hline⟩ := hparts
    rename_i lead between trail
    have htrimmed : '\n' ∉ trim (between ++ (s ++ trail)) := by
      rw [trim_between hbetween htrail]
      obtain ⟨a, b, hs, -⟩ := trim_parts s
      intro hmem
      rw [hs] at hline
      exact hline (List.mem_append_left b (List.mem_append_right a hmem))
    generalize between ++ (s ++ trail) = rest at htrimmed h
    obtain ⟨found, rest', hread, hshort⟩ := Numeral.longest?_reaches hwritten rest
    obtain ⟨n', hcut, -⟩ := Numeral.longest?_written hread
    -- What stands behind the longest numeral stands behind the other as well.
    obtain ⟨more, rfl⟩ : rest' <:+ rest := by
      have hends : rest' <:+ n ++ rest := hcut ▸ List.suffix_append n' rest'
      exact List.suffix_of_suffix_length_le hends (List.suffix_append n rest) hshort
    -- A line end within what is left behind the longest one would be within the suffix that has
    -- none.
    have hclear : '\n' ∉ trim rest' := by
      intro hmem
      obtain ⟨front, behind, rfl, hfront, hbehind⟩ := (mem_trim_iff (by decide)).1 hmem
      refine htrimmed ((mem_trim_iff (by decide)).2 ⟨more ++ front, behind, by simp, ?_, hbehind⟩)
      rw [allBlank_append, hfront, Bool.and_false]
    unfold split? at h
    rw [trimStart_numeral hwritten hlead, hread] at h
    simp [hclear] at h
  · intro h
    cases hsplit : split? cs with
    | none => rfl
    | some parts =>
        obtain ⟨n, -, -, hparts, -⟩ := split?_eq_some_iff.1 hsplit
        exact absurd hparts (h n parts.2)

/-- A numeral between blanks has nothing behind it. -/
theorem split?_between (h : numeral.WrittenAs n) {lead trail : List Char}
    (hlead : allBlank lead = true) (htrail : allBlank trail = true) :
    split? (lead ++ (n ++ trail)) = some (numeral, []) := by
  unfold split?
  rw [trimStart_numeral h hlead, Numeral.longest?_blanks htrail, h.longest?]
  simp only [Option.map_some, List.nil_append, trim_of_allBlank htrail]
  rfl

/-- A text is a number if it is a numeral when it is trimmed. -/
theorem isNumberText_iff_isText : isNumberText cs = true ↔ Numeral.IsText (trim cs) := by
  constructor
  · intro h
    unfold isNumberText at h
    split at h
    · next numeral hsplit =>
        obtain ⟨n, hwritten, -, hparts, -⟩ := split?_eq_some_iff.1 hsplit
        obtain ⟨hlead, hbetween, htrail, hnumeral, -⟩ := hparts
        rename_i lead between trail
        have hbehind : allBlank (between ++ ([] ++ trail)) = true := by
          rw [List.nil_append, allBlank_append, hbetween, htrail, Bool.and_self]
        rw [trim_between hlead hbehind, trim_eq_self fun c hc => (hwritten.plain c hc).1]
        exact hnumeral
    · cases h
  · rintro ⟨numeral, hwritten⟩
    rw [← isNumberText_trim]
    exact isNumberText_of_writtenAs hwritten

end Quantity

-- ================================================================ the reader

/-- A text is split into the number of the longest numeral behind its blanks
and into the suffix behind that, which lies on one line and is trimmed; and it
is not split only if there is no way at all to take it apart. It is a plain
number if what is left of it between blanks is a numeral. -/
theorem Value.split?_text (t : String) :
    (∀ x s, (Value.text t).split? = .ok (some ⟨x, s⟩) ↔
        ∃ n, Numeral.LongestIn n (trimStart t.toList) ∧ Decimal.read? n = some x
          ∧ Quantity.Parts n s.toList t.toList ∧ trim s.toList = s.toList)
      ∧ ((Value.text t).split? = .ok none ↔ ∀ n s, ¬ Quantity.Parts n s t.toList)
      ∧ ((Value.text t).isNumeric = .ok true ↔ Numeral.IsText (trim t.toList)) := by
  refine ⟨fun x s => ?_, ?_, ?_⟩
  · have hread : (Value.text t).split? = .ok (some ⟨x, s⟩)
        ↔ ∃ numeral, Quantity.split? t.toList = some (numeral, s.toList)
          ∧ numeral.toFloat = x := by
      simp only [Value.split?, Quantity.read?, Except.ok.injEq, Option.map_eq_some_iff,
        Quantity.mk.injEq, Prod.exists]
      constructor
      · rintro ⟨numeral, suffix, hsplit, hx, rfl⟩
        exact ⟨numeral, by rwa [String.toList_ofList], hx⟩
      · rintro ⟨numeral, hsplit, hx⟩
        exact ⟨numeral, s.toList, hsplit, hx, String.ofList_toList⟩
    rw [hread]
    constructor
    · rintro ⟨numeral, hsplit, rfl⟩
      obtain ⟨n, hwritten, hmost, hparts, htrim⟩ := Quantity.split?_eq_some_iff.1 hsplit
      exact ⟨n, hmost, Decimal.read?_of_writtenAs hwritten, hparts, htrim⟩
    · rintro ⟨n, hmost, hx, hparts, htrim⟩
      obtain ⟨numeral, hwritten⟩ := hmost.numeral
      rw [Decimal.read?_of_writtenAs hwritten] at hx
      exact ⟨numeral, Quantity.split?_eq_some_iff.2 ⟨n, hwritten, hmost, hparts, htrim⟩,
        Option.some.inj hx⟩
  · rw [← Quantity.split?_eq_none_iff, Value.split?, Quantity.read?]
    simp
  · rw [← Quantity.isNumberText_iff_isText, Value.isNumeric]
    simp

end UnitCalc
