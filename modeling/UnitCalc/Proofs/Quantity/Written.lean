/-
Written quantities and what is read of them.

A finite float is written as a decimal number (`Quantity.written_spelled`), so
that the unit behind it is found again, provided its label is none that a number
could go on with (`ReadableLabel`). The names of the infinities and of no number
are not numbers, and with them the whole text reads as no quantity.

Both together say which written quantities keep their unit: those of finite
numbers, and no others (`UnitRegistry.unitOf_written`).

# Layouts

A layout places the point among the digits, before or behind them, or writes a
power of ten. Whatever it chooses, what comes out are a mantissa and an exponent
of a spelled number. Which number it is does not matter here; that it is the one
that was written is the subject of `Proofs/Quantity/Returned`.

# Labels

What is asked of a label is what the reader needs: it is trimmed and lies on one
line, as every suffix that is read, and it stops a number
(`ReadableLabel.stopsNumber`). A label that begins with a letter other than an
exponent's is readable (`ReadableLabel.of_head`), and so are all of the usual
ones (`standard_readableLabel`).
-/
import UnitCalc.Proofs.Binary.Range
import UnitCalc.Proofs.Quantity.Reading

namespace UnitCalc

open Text

-- ================================================================== digits

theorem isAsciiDigit_of_isDigit {c : Char} (h : c.isDigit = true) : isAsciiDigit c = true := by
  unfold Char.isDigit at h
  rw [Bool.and_eq_true, decide_eq_true_eq, decide_eq_true_eq] at h
  unfold isAsciiDigit
  rw [Bool.and_eq_true, decide_eq_true_eq, decide_eq_true_eq]
  exact h

/-- Natural numbers are written in digits. -/
theorem isDigits_toDigits (n : Nat) : IsDigits (Nat.toDigits 10 n) := by
  refine ⟨Nat.toDigits_ne_nil, fun c hc => isAsciiDigit_of_isDigit ?_⟩
  exact Nat.isDigit_of_mem_toDigits (by decide) (by decide) hc

/-- Whole numbers are written in digits behind an optional minus. -/
theorem spelled_int (n : Int) : ∃ s d, IsSign s ∧ IsDigits d ∧ (toString n).toList = s ++ d := by
  rw [Int.toString_eq_repr, Int.repr_eq_if]
  split
  · exact ⟨[], _, .none, isDigits_toDigits n.toNat, Nat.toList_repr⟩
  · refine ⟨['-'], _, .minus, isDigits_toDigits (-n).toNat, ?_⟩
    rw [String.toList_append, Nat.toList_repr]
    rfl

-- ================================================================= layouts

namespace Layout

/-- Of digits some are left without the zeros at the end. -/
theorem isDigits_dropTrailingZeros {digits : List Char} (h : IsDigits digits) :
    IsDigits (dropTrailingZeros digits) := by
  obtain ⟨hne, hall⟩ := h
  unfold dropTrailingZeros
  split
  · refine ⟨?_, fun c hc => hall c (List.mem_of_mem_take hc)⟩
    obtain ⟨c, cs, rfl⟩ := List.exists_cons_of_ne_nil hne
    simp
  · next kept hkept =>
      refine ⟨hkept, fun c hc => hall c ?_⟩
      rw [List.mem_reverse] at hc
      exact List.mem_reverse.1 ((List.dropWhile_sublist _).subset hc)

/-- Digits with the point in place. -/
theorem isMantissa_placed {digits : List Char} (h : IsDigits digits) (point : Int) :
    IsMantissa (placed digits point) := by
  obtain ⟨hne, hall⟩ := h
  have hzero : isAsciiDigit '0' = true := by decide
  have hzeros : ∀ n, ∀ c ∈ List.replicate n '0', isAsciiDigit c = true := by
    intro n c hc
    rw [(List.mem_replicate.1 hc).2, hzero]
  unfold placed
  -- The point is before all digits, behind all of them, or among them; a zero stands where there
  -- would be none.
  split
  · refine .pointed (w := ['0']) ⟨by simp, hzeros 1⟩ fun c hc => ?_
    rcases List.mem_append.1 hc with hc | hc
    · exact hzeros _ c hc
    · exact hall c hc
  · split
    · refine .pointed ⟨by simp [hne], fun c hc => ?_⟩ (hzeros 1)
      rcases List.mem_append.1 hc with hc | hc
      · exact hall c hc
      · exact hzeros _ c hc
    · next hpoint _ =>
        refine .pointed ⟨?_, fun c hc => hall c (List.mem_of_mem_take hc)⟩
          fun c hc => hall c (List.mem_of_mem_drop hc)
        obtain ⟨n, hn⟩ : ∃ n, point.natAbs = n + 1 := ⟨point.natAbs - 1, by omega⟩
        obtain ⟨c, cs, rfl⟩ := List.exists_cons_of_ne_nil hne
        simp [hn]

/-- Digits with a power of ten. -/
theorem spelled_powered {digits : List Char} (h : IsDigits digits) (width : Nat)
    (exponent : Int) :
    ∃ m x, IsMantissa m ∧ IsExponent x ∧ powered width digits exponent = m ++ x := by
  have hpower : IsDigits (List.replicate (width - (Nat.toDigits 10 exponent.natAbs).length) '0'
      ++ Nat.toDigits 10 exponent.natAbs) := by
    obtain ⟨hne, hall⟩ := isDigits_toDigits exponent.natAbs
    refine ⟨by simp [hne], fun c hc => ?_⟩
    rcases List.mem_append.1 hc with hc | hc
    · rw [(List.mem_replicate.1 hc).2]
      decide
    · exact hall c hc
  have hexponent : IsExponent ('e' :: ((if exponent < 0 then ['-'] else ['+'])
      ++ (List.replicate (width - (Nat.toDigits 10 exponent.natAbs).length) '0'
        ++ Nat.toDigits 10 exponent.natAbs))) := by
    refine .power (Or.inl rfl) ?_ hpower
    split
    · exact .minus
    · exact .plus
  obtain ⟨hne, hall⟩ := h
  unfold powered
  split
  · next first second more =>
      rw [List.forall_mem_cons] at hall
      refine ⟨_, _, .pointed (w := [first]) ⟨by simp, by simpa using hall.1⟩ hall.2, hexponent, ?_⟩
      split <;> simp
  · refine ⟨_, _, .whole ⟨hne, hall⟩, hexponent, ?_⟩
    split <;> simp

variable (layout : Layout)

/-- The magnitude of a decimal is written as a number without a sign. -/
theorem spelled_magnitudeText (d : Decimal) :
    ∃ m x, IsMantissa m ∧ IsExponent x ∧ layout.magnitudeText d = m ++ x := by
  have hdigits := isDigits_dropTrailingZeros (isDigits_toDigits d.mantissa)
  unfold magnitudeText
  dsimp only
  split
  · exact ⟨_, [], isMantissa_placed hdigits _, .none, (List.append_nil _).symm⟩
  · exact spelled_powered hdigits _ _

/-- A finite float is written as a number. -/
theorem isNumber_floatText {x : Float} (h : Binary.isFinite x = true) :
    IsNumber (layout.floatText x) := by
  unfold Binary.isFinite at h
  unfold floatText
  cases hx : Binary.ofFloat x with
  | infinite negative => simp [hx] at h
  | nan => simp [hx] at h
  | finite negative quanta =>
      dsimp only
      obtain ⟨m, e, hm, he, htext⟩ := layout.spelled_magnitudeText
        (if quanta = 0 then ⟨false, 0, 0⟩ else Decimal.shortest quanta)
      rw [htext]
      refine .intro ?_ hm he
      cases negative with
      | false => exact .none
      | true => exact .minus

/-- Any other float is written as a name. -/
theorem floatText_of_not_isFinite {x : Float} (h : Binary.isFinite x = false) :
    ∃ s c name, IsSign s ∧ (c = 'n' ∨ c = 'i') ∧ layout.floatText x = s ++ c :: name := by
  unfold Binary.isFinite at h
  unfold floatText
  cases hx : Binary.ofFloat x with
  | finite negative quanta => simp [hx] at h
  | nan => exact ⟨[], 'n', _, .none, Or.inl rfl, rfl⟩
  | infinite negative =>
      refine ⟨_, 'i', ['n', 'f'], ?_, Or.inr rfl, rfl⟩
      cases negative with
      | false => exact .none
      | true => exact .minus

end Layout

-- ============================================================== quantities

namespace Quantity

variable {x : Float}

/-- A finite number with a unit is written as a number and the unit. -/
theorem written_spelled (h : Binary.isFinite x = true) (unit : String) :
    ∃ n, IsNumber n ∧ (written x unit).toList = n ++ unit.toList := by
  have hfloat := Layout.standard.isNumber_floatText h
  unfold Binary.isFinite at h
  unfold written
  rw [String.toList_append]
  cases hx : Binary.ofFloat x with
  | infinite negative => simp [hx] at h
  | nan => simp [hx] at h
  | finite negative quanta =>
      dsimp only
      split
      · -- A whole number shows neither a point nor a power of ten.
        obtain ⟨s, d, hs, hd, htext⟩ := spelled_int
          (if negative then -((quanta / Binary.unit : Nat) : Int) else (quanta / Binary.unit : Nat))
        have hnumber : IsNumber (s ++ (d ++ [])) := .intro hs (.whole hd) .none
        rw [List.append_nil] at hnumber
        exact ⟨s ++ d, hnumber, by rw [← htext]⟩
      · refine ⟨_, hfloat, ?_⟩
        rw [Value.ofFloatText, String.toList_ofList]

/-- What is no finite number is written as its name and the unit. -/
theorem written_of_not_isFinite (h : Binary.isFinite x = false) (unit : String) :
    (written x unit).toList = Layout.standard.floatText x ++ unit.toList := by
  unfold Binary.isFinite at h
  unfold written
  rw [String.toList_append]
  cases hx : Binary.ofFloat x with
  | finite negative quanta => simp [hx] at h
  | infinite negative => rw [Value.ofFloatText, String.toList_ofList]
  | nan => rw [Value.ofFloatText, String.toList_ofList]

end Quantity

-- ================================================================== labels

/-- A label that is found again behind any number: it has no blanks at its
ends, lies on one line, and does not begin like something that a number goes
on with, which is a digit, a point, or a mark of an exponent with its sign
and a digit. -/
structure ReadableLabel (label : String) : Prop where
  trimmed : trim label.toList = label.toList
  oneLine : '\n' ∉ label.toList
  noDigit : ∀ c ∈ label.toList.head?, isDigit c = false ∧ c ≠ '.'
  noPower : ∀ mark sign digit more, mark = 'e' ∨ mark = 'E' → IsSign sign →
    label.toList = mark :: (sign ++ digit :: more) → isDigit digit = false

/-- A number ends where a readable label begins. -/
theorem ReadableLabel.stopsNumber {label : String} (h : ReadableLabel label) :
    StopsNumber label.toList := by
  refine ⟨h.noDigit, ?_⟩
  obtain ⟨x, hlabel, hpower⟩ := Numeral.takeExponent_written label.toList
  generalize Numeral.takeExponent label.toList = read at hlabel hpower ⊢
  obtain ⟨exponent, rest⟩ := read
  dsimp only at hlabel hpower ⊢
  cases hpower with
  | none => exact hlabel.symm
  | @power mark sign d hmark hsign hd =>
      -- The label has no digit where this power has its first.
      obtain ⟨digit, more, rfl⟩ := List.exists_cons_of_ne_nil hd.1
      have hnone := h.noPower mark sign digit (more ++ rest) hmark hsign (by simpa using hlabel)
      rw [hd.2 digit List.mem_cons_self] at hnone
      cases hnone

/-- A label that begins with a letter other than those of exponents. -/
theorem ReadableLabel.of_head {label : String} {c : Char} {more : List Char}
    (hlabel : label.toList = c :: more) (hc : isDigit c = false ∧ c ≠ '.' ∧ c ≠ 'e' ∧ c ≠ 'E')
    (htrimmed : trim label.toList = label.toList) (hline : '\n' ∉ label.toList) :
    ReadableLabel label where
  trimmed := htrimmed
  oneLine := hline
  noDigit := by
    rw [hlabel]
    rintro _ ⟨⟩
    exact ⟨hc.1, hc.2.1⟩
  noPower := by
    rw [hlabel]
    rintro mark sign digit more (rfl | rfl) - heq
    · exact absurd (List.cons.inj heq).1 hc.2.2.1
    · exact absurd (List.cons.inj heq).1 hc.2.2.2

-- ================================================================= reading

/-- The name of a float that is no number is not read as one. -/
theorem Numeral.longest?_name {s name : List Char} {c : Char} (hs : IsSign s)
    (hc : isDigit c = false ∧ c ≠ '.' ∧ c ≠ '+' ∧ c ≠ '-') : longest? (s ++ c :: name) = none := by
  obtain ⟨hdigit, hpoint, hplus, hminus⟩ := hc
  have hhead : ∀ d ∈ (c :: name).head?, d ≠ '+' ∧ d ≠ '-' := by
    intro d hd
    obtain rfl := Option.some.inj hd
    exact ⟨hplus, hminus⟩
  have hmantissa : takeMantissa? (c :: name) = none := by
    unfold takeMantissa?
    rw [List.takeWhile_cons_of_neg (by simp [hdigit]),
      List.dropWhile_cons_of_neg (by simp [hdigit])]
    dsimp only
    split
    · next heq => exact absurd (List.cons.inj heq).1 hpoint
    · rfl
  unfold longest?
  -- The sign is taken if there is one, and behind it no mantissa begins.
  rw [takeSign_of_head hs hhead]
  dsimp only
  rw [hmantissa]

/-- A written number that is not finite reads as nothing. -/
theorem Quantity.read?_written_of_not_isFinite {x : Float} (h : Binary.isFinite x = false)
    (unit : String) : Quantity.read? (written x unit).toList = none := by
  obtain ⟨s, c, name, hs, hc, htext⟩ := Layout.standard.floatText_of_not_isFinite h
  have hletter : isBlank c = false ∧ isDigit c = false ∧ c ≠ '.' ∧ c ≠ '+' ∧ c ≠ '-' := by
    rcases hc with rfl | rfl <;> decide
  have hstart : trimStart (s ++ c :: (name ++ unit.toList)) = s ++ c :: (name ++ unit.toList) := by
    cases hs with
    | none => exact trimStart_eq_self hletter.1
    | plus => exact trimStart_eq_self (by decide)
    | minus => exact trimStart_eq_self (by decide)
  unfold read? split?
  rw [written_of_not_isFinite h, htext, List.append_assoc, List.cons_append, hstart,
    Numeral.longest?_name hs hletter.2]
  rfl

/-- A written quantity reads as a number in the unit it was written in if
the number is finite, and as nothing if it is not. -/
theorem Quantity.read?_written (x : Float) {unit : String} (hunit : ReadableLabel unit) :
    (Quantity.read? (written x unit).toList).map Quantity.suffix
      = if Binary.isFinite x = true then some unit else none := by
  cases hfinite : Binary.isFinite x with
  | false =>
      rw [read?_written_of_not_isFinite hfinite]
      rfl
  | true =>
      obtain ⟨n, hn, htext⟩ := written_spelled hfinite unit
      obtain ⟨c, tail, rfl, hblank⟩ := hn.head
      obtain ⟨numeral, hlongest⟩ := hn.longest? hunit.stopsNumber
      have hstart : trimStart (c :: tail ++ unit.toList) = c :: tail ++ unit.toList :=
        trimStart_eq_self hblank
      have hline : unit.toList.contains '\n' = false := by simpa using hunit.oneLine
      unfold read? split?
      rw [htext, hstart, hlongest]
      dsimp only
      rw [hunit.trimmed, hline]
      simp

/-- A written quantity carries its unit exactly if its number is finite. -/
theorem UnitRegistry.unitOf_written {r : UnitRegistry} {unit : String}
    (hknown : r.isUnit unit = true) (hunit : ReadableLabel unit) (x : Float) :
    r.unitOf (.text (Quantity.written x unit))
      = .ok (if Binary.isFinite x = true then some unit else none) := by
  have hread := Quantity.read?_written x hunit
  unfold unitOf Value.split?
  simp only [Except.map]
  cases hquantity : Quantity.read? (Quantity.written x unit).toList with
  | none =>
      rw [hquantity] at hread
      rw [← hread]
      rfl
  | some quantity =>
      rw [hquantity, Option.map_some] at hread
      split at hread
      · next hfinite =>
          obtain ⟨rfl⟩ := hread
          simp [hknown, hfinite]
      · cases hread

-- ========================================================= the usual labels

/-- The labels of the registry of lengths are readable. -/
theorem standard_readableLabel {resolution : Value} {canonical unit : String}
    (h : (UnitRegistry.standard resolution canonical).isUnit unit = true) :
    ReadableLabel unit := by
  unfold UnitRegistry.isUnit at h
  rw [Bool.and_eq_true, List.contains_iff_mem, bne_iff_ne] at h
  obtain ⟨hnamed, hmem⟩ := h
  have hlabels : (UnitRegistry.standard resolution canonical).labels
      = ["pt", "cm", "pt", "in", "pt", "mm", "", "%", "pt", "pc", "pt", "pica", "pt", "px"] := rfl
  rw [hlabels] at hmem
  simp only [List.mem_cons, List.not_mem_nil, or_false] at hmem
  rcases hmem with rfl | rfl | rfl | rfl | rfl | rfl | rfl | rfl | rfl | rfl | rfl | rfl | rfl
    | rfl
  all_goals
    first
    | exact absurd rfl hnamed
    | exact .of_head rfl (by decide) (by decide) (by decide)

end UnitCalc
