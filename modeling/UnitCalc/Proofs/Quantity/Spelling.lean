/-
How quantities are spelled in ASCII.

A number has up to three parts, each of which is a list of characters with a
property: a sign, a mantissa with a point somewhere in it or none, and a power
of ten (`IsNumber`). A quantity is a number with nothing or a unit behind it
(`IsQuantity`). This is how quantities are written, by people and by the
program itself; what is read is more, since it takes the digits of any script
(`Proofs/Decimal/Numeral`).

# Where a number ends

What may stand behind such a number is whatever cannot continue it
(`StopsNumber`): no digit, no point and no power of ten. The mark of an exponent
may be there if no power follows it, so a unit may begin with that letter.

# Deciding about characters

A fact about ten digits or all blanks is decided of each one of them. There are
too many characters to have it decided which of them are in a list, so `decide`
cannot be asked for a statement about all members; it computes `List.all`
instead, and `forall_mem_of_all` says what that means.
-/
import Mathlib.Data.List.TakeWhile
import UnitCalc.Quantity
import UnitCalc.Unit.Registry

namespace UnitCalc

open Text

-- ============================================================ characters

/-- The digits of ASCII, one by one. -/
def asciiDigits : List Char :=
  ['0', '1', '2', '3', '4', '5', '6', '7', '8', '9']

theorem mem_asciiDigits {c : Char} (h : isAsciiDigit c = true) : c ∈ asciiDigits := by
  have hbounds : 48 ≤ c.toNat ∧ c.toNat ≤ 57 := by
    unfold isAsciiDigit at h
    rw [Bool.and_eq_true, decide_eq_true_eq, decide_eq_true_eq] at h
    exact ⟨h.1, h.2⟩
  obtain ⟨hlow, hhigh⟩ := hbounds
  rw [← Char.ofNat_toNat c]
  generalize c.toNat = n at hlow hhigh
  -- A character is its number, and between these bounds there are ten.
  have hcases : n = 48 ∨ n = 49 ∨ n = 50 ∨ n = 51 ∨ n = 52 ∨ n = 53 ∨ n = 54 ∨ n = 55 ∨ n = 56
      ∨ n = 57 := by omega
  rcases hcases with rfl | rfl | rfl | rfl | rfl | rfl | rfl | rfl | rfl | rfl <;> decide

theorem isDigit_of_isAsciiDigit {c : Char} (h : isAsciiDigit c = true) : isDigit c = true := by
  unfold isDigit digitValue?
  rw [if_pos h]
  rfl

/-- What is decided of each character of a list in turn. There are too many
characters to ask all of them whether they are in it. -/
theorem forall_mem_of_all {p : Char → Prop} [DecidablePred p] {cs : List Char}
    (h : cs.all (fun c => decide (p c)) = true) : ∀ c ∈ cs, p c := by
  intro c hc
  exact of_decide_eq_true (List.all_eq_true.1 h c hc)

/-- What holds of each of the ten. -/
theorem of_isAsciiDigit {p : Char → Prop} [DecidablePred p] {c : Char}
    (h : isAsciiDigit c = true) (hall : asciiDigits.all (fun d => decide (p d)) = true) : p c :=
  forall_mem_of_all hall c (mem_asciiDigits h)

/-- What holds of each of the blanks. -/
theorem of_isBlank {p : Char → Prop} [DecidablePred p] {c : Char} (h : isBlank c = true)
    (hall : (spacingPoints ++ separatorPoints).all (fun n => decide (p (Char.ofNat n))) = true) :
    p c := by
  have hmem : c.toNat ∈ spacingPoints ++ separatorPoints := by
    simpa [isBlank, isSpacing] using h
  rw [← Char.ofNat_toNat c]
  exact of_decide_eq_true (List.all_eq_true.1 hall c.toNat hmem)

-- =============================================================== spelling

/-- One or more digits of ASCII. -/
def IsDigits (cs : List Char) : Prop :=
  cs ≠ [] ∧ ∀ c ∈ cs, isAsciiDigit c = true

/-- Each character is looked at, not every character there is. -/
instance (cs : List Char) : Decidable (IsDigits cs) :=
  decidable_of_iff ((!cs.isEmpty && cs.all isAsciiDigit) = true) (by simp [IsDigits])

/-- An optional sign. -/
inductive IsSign : List Char → Prop
  | none : IsSign []
  | plus : IsSign ['+']
  | minus : IsSign ['-']

/-- Digits with an optional point in front of them, among them or behind
them. -/
inductive IsMantissa : List Char → Prop
  | whole {w : List Char} (digits : IsDigits w) : IsMantissa w
  | pointed {w f : List Char} (digits : IsDigits w) (fraction : ∀ c ∈ f, isAsciiDigit c = true) :
      IsMantissa (w ++ '.' :: f)
  | point {f : List Char} (digits : IsDigits f) : IsMantissa ('.' :: f)

/-- An optional power of ten. -/
inductive IsExponent : List Char → Prop
  | none : IsExponent []
  | power {m : Char} {s d : List Char} (mark : m = 'e' ∨ m = 'E') (sign : IsSign s)
      (digits : IsDigits d) : IsExponent (m :: (s ++ d))

/-- A decimal number. -/
inductive IsNumber : List Char → Prop
  | intro {s m x : List Char} (sign : IsSign s) (mantissa : IsMantissa m)
      (exponent : IsExponent x) : IsNumber (s ++ (m ++ x))

/-- A decimal number with nothing or a unit behind it. -/
inductive IsQuantity (units : UnitRegistry) : List Char → Prop
  | plain {n : List Char} (number : IsNumber n) : IsQuantity units n
  | ofUnit {n : List Char} {unit : String} (number : IsNumber n)
      (known : units.isUnit unit = true) : IsQuantity units (n ++ unit.toList)

-- ============================================================= its ends

/-- Digits of any script up to a character that is none. -/
theorem takeWhile_run {ds rest : List Char} (hds : ∀ c ∈ ds, isDigit c = true)
    (hrest : ∀ c ∈ rest.head?, isDigit c = false) :
    (ds ++ rest).takeWhile isDigit = ds ∧ (ds ++ rest).dropWhile isDigit = rest := by
  rw [List.takeWhile_append_of_pos hds, List.dropWhile_append_of_pos hds]
  cases rest with
  | nil => simp
  | cons c rest =>
      have hc := hrest c rfl
      simp [hc]

/-- What cannot continue a number: no digit, no point and no power of ten.
An exponent mark may come first if no power follows it. -/
def StopsNumber (rest : List Char) : Prop :=
  (∀ c ∈ rest.head?, isDigit c = false ∧ c ≠ '.') ∧ (Numeral.takeExponent rest).2 = rest

theorem stopsNumber_nil : StopsNumber [] :=
  ⟨by simp, rfl⟩

/-- A mantissa begins with a digit or with a point before one. -/
theorem IsMantissa.head {m : List Char} (hm : IsMantissa m) (rest : List Char) :
    ∃ c tail, m ++ rest = c :: tail ∧ (isAsciiDigit c = true
      ∨ c = '.' ∧ ∃ d more, tail = d :: more ∧ isAsciiDigit d = true) := by
  cases hm with
  | whole hw =>
      obtain ⟨c, w, rfl⟩ := List.exists_cons_of_ne_nil hw.1
      exact ⟨c, w ++ rest, rfl, Or.inl (hw.2 c List.mem_cons_self)⟩
  | @pointed _ f hw hf =>
      obtain ⟨c, w, rfl⟩ := List.exists_cons_of_ne_nil hw.1
      exact ⟨c, w ++ '.' :: f ++ rest, rfl, Or.inl (hw.2 c List.mem_cons_self)⟩
  | point hf =>
      obtain ⟨d, f, rfl⟩ := List.exists_cons_of_ne_nil hf.1
      exact ⟨'.', d :: f ++ rest, rfl, Or.inr ⟨rfl, d, f ++ rest, rfl, hf.2 d List.mem_cons_self⟩⟩

end UnitCalc
