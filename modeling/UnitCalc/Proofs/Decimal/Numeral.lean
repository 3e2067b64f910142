/-
The language of numerals, in the digits of every script.

It is told apart from the reader, part by part, together with what each part
spells (`Numeral.WrittenAs`). That the reader answers a numeral at the start
of a text is shown for its parts in turn (`Numeral.longest?_written`).

# Why what is read is the longest

The reader never gives back what it took, so it could stop short where another
way of reading would get further. It does not: whatever numeral a text begins
with, the reader gets as far or further (`Numeral.longest?_reaches`). A power
decides it. What stands in front of a power is a mantissa that no digit and no
point goes on with (`Numeral.PowerWritten.head`), so there the reader stops as
well; and without a power any mantissa that is longer will do.

So a numeral at the start of a text is the longest one exactly if it is the
one that is read (`Numeral.longest?_eq_some_iff`). Those who read on behind
the numeral, for a unit or for an operator, use `WrittenAs.longest?_append`:
it says what may follow.

# Standing alone

A numeral has no blanks in it and no underscores, so the free form reads it as
the same number (`Decimal.read?_of_writtenAs`).
-/
import UnitCalc.Decimal.Written
import UnitCalc.Proofs.Quantity.Spelling

namespace UnitCalc

open Text

namespace Numeral

-- ================================================================ the language

/-- One or more digits of any script. -/
def IsRun (cs : List Char) : Prop :=
  cs ≠ [] ∧ ∀ c ∈ cs, isDigit c = true

/-- Digits and an optional point with more of them behind it, or a point and
digits; with them, what stands before the point and behind it. -/
inductive MantissaWritten : List Char → List Char → List Char → Prop
  | whole {w : List Char} (digits : IsRun w) : MantissaWritten w [] w
  | pointed {w f : List Char} (digits : IsRun w) (fraction : ∀ c ∈ f, isDigit c = true) :
      MantissaWritten w f (w ++ '.' :: f)
  | point {f : List Char} (digits : IsRun f) : MantissaWritten [] f ('.' :: f)

/-- Nothing, or a mark, an optional sign and digits; with them, the power of
ten. -/
inductive PowerWritten : Int → List Char → Prop
  | none : PowerWritten 0 []
  | power {mark : Char} {s d : List Char} (marks : mark = 'e' ∨ mark = 'E') (sign : IsSign s)
      (digits : IsRun d) :
      PowerWritten (if s = ['-'] then -(digitsValue d : Int) else digitsValue d) (mark :: (s ++ d))

/-- The texts of a numeral: an optional sign, a mantissa and an optional power
of ten. -/
inductive WrittenAs : Numeral → List Char → Prop
  | intro {s w f m x : List Char} {exponent : Int} (sign : IsSign s)
      (mantissa : MantissaWritten w f m) (power : PowerWritten exponent x) :
      WrittenAs ⟨decide (s = ['-']), w, f, exponent⟩ (s ++ (m ++ x))

/-- Whether a text is a numeral. -/
def IsText (cs : List Char) : Prop :=
  ∃ n : Numeral, n.WrittenAs cs

/-- Whether a text begins with a numeral and with no longer one. -/
structure LongestIn (taken cs : List Char) : Prop where
  begins : taken <+: cs
  numeral : IsText taken
  longest : ∀ other, other <+: cs → IsText other → other.length ≤ taken.length

-- ================================================================== its parts

variable {s w f m x d cs rest : List Char} {exponent : Int}

theorem isDigit_of_mark {mark : Char} (h : mark = 'e' ∨ mark = 'E') :
    isDigit mark = false ∧ mark ≠ '.' := by
  rcases h with rfl | rfl <;> decide

theorem IsRun.head (h : IsRun d) (rest : List Char) :
    ∀ c ∈ (d ++ rest).head?, isDigit c = true := by
  obtain ⟨c, more, rfl⟩ := List.exists_cons_of_ne_nil h.1
  rintro _ ⟨⟩
  exact h.2 c List.mem_cons_self

/-- A mantissa begins with a digit or with the point. -/
theorem MantissaWritten.head (h : MantissaWritten w f m) (rest : List Char) :
    ∀ c ∈ (m ++ rest).head?, isDigit c = true ∨ c = '.' := by
  cases h with
  | whole hw => exact fun c hc => Or.inl (hw.head rest c hc)
  | pointed hw hf =>
      rw [List.append_assoc]
      exact fun c hc => Or.inl (hw.head _ c hc)
  | point hf =>
      rintro _ ⟨⟩
      exact Or.inr rfl

/-- With a power or without one, no digit and no point comes right behind a
mantissa. -/
theorem PowerWritten.head (h : PowerWritten exponent x)
    (hrest : ∀ c ∈ rest.head?, isDigit c = false ∧ c ≠ '.') :
    ∀ c ∈ (x ++ rest).head?, isDigit c = false ∧ c ≠ '.' := by
  cases h with
  | none => exact hrest
  | power hmark _ _ =>
      rintro _ ⟨⟩
      exact isDigit_of_mark hmark

/-- Neither digits nor a mantissa begin with a sign. -/
theorem ne_sign_of_head (h : ∀ c ∈ cs.head?, isDigit c = true ∨ c = '.') :
    ∀ c ∈ cs.head?, c ≠ '+' ∧ c ≠ '-' := by
  intro c hc
  rcases h c hc with hdigit | rfl
  · constructor <;> rintro rfl <;> exact absurd hdigit (by decide)
  · decide

/-- A numeral is written in digits and five other characters. -/
theorem WrittenAs.letters {n : Numeral} (h : n.WrittenAs cs) :
    ∀ c ∈ cs, isDigit c = true ∨ c ∈ ['.', '+', '-', 'e', 'E'] := by
  have hsign : ∀ s, IsSign s → ∀ c ∈ s, c ∈ ['.', '+', '-', 'e', 'E'] := by
    rintro _ (_ | _ | _) <;> simp
  obtain ⟨hs, hm, hx⟩ := h
  rename_i s w f m x exponent
  intro c hc
  rw [List.mem_append, List.mem_append] at hc
  rcases hc with hc | hc | hc
  · exact Or.inr (hsign s hs c hc)
  · cases hm with
    | whole hw => exact Or.inl (hw.2 c hc)
    | pointed hw hf =>
        rw [List.mem_append, List.mem_cons] at hc
        rcases hc with hc | rfl | hc
        · exact Or.inl (hw.2 c hc)
        · exact Or.inr (by decide)
        · exact Or.inl (hf c hc)
    | point hf =>
        rcases List.mem_cons.1 hc with rfl | hc
        · exact Or.inr (by decide)
        · exact Or.inl (hf.2 c hc)
  · cases hx with
    | none => cases hc
    | power hmark hg hd =>
        rw [List.mem_cons, List.mem_append] at hc
        rcases hc with rfl | hc | hc
        · rcases hmark with rfl | rfl <;> exact Or.inr (by decide)
        · exact Or.inr (hsign _ hg c hc)
        · exact Or.inl (hd.2 c hc)

theorem MantissaWritten.ne_nil (h : MantissaWritten w f m) : m ≠ [] := by
  cases h with
  | whole hw => exact hw.1
  | pointed _ _ => simp
  | point _ => simp

theorem WrittenAs.ne_nil {n : Numeral} (h : n.WrittenAs cs) : cs ≠ [] := by
  obtain ⟨-, hm, -⟩ := h
  simp [hm.ne_nil]

-- ==================================================== what is read is a numeral

/-- What is read of a sign is one. -/
theorem takeSign_written (cs : List Char) :
    ∃ s, IsSign s ∧ cs = s ++ (takeSign cs).2 ∧ (takeSign cs).1 = decide (s = ['-']) := by
  unfold takeSign
  split
  · exact ⟨['-'], .minus, rfl, rfl⟩
  · exact ⟨['+'], .plus, rfl, rfl⟩
  · exact ⟨[], .none, rfl, rfl⟩

theorem takeMantissa?_written (h : takeMantissa? cs = some (w, f, rest)) :
    ∃ m, cs = m ++ rest ∧ MantissaWritten w f m := by
  have hwhole := List.takeWhile_append_dropWhile (p := isDigit) (l := cs)
  have hdigits : ∀ ds : List Char, ∀ c ∈ ds.takeWhile isDigit, isDigit c = true :=
    fun _ _ hc => List.mem_takeWhile_imp hc
  unfold takeMantissa? at h
  dsimp only at h
  split at h
  · next behind hdrop =>
      have hbehind := List.takeWhile_append_dropWhile (p := isDigit) (l := behind)
      split at h
      · cases h
      · next hsome =>
          simp only [Option.some.injEq, Prod.mk.injEq] at h
          obtain ⟨rfl, rfl, rfl⟩ := h
          rw [Bool.and_eq_true, List.isEmpty_iff, List.isEmpty_iff, not_and_or] at hsome
          refine ⟨cs.takeWhile isDigit ++ '.' :: behind.takeWhile isDigit, ?_, ?_⟩
          · rw [List.append_assoc, List.cons_append, hbehind, ← hdrop, hwhole]
          · -- Only one of the two runs of digits may be missing.
            by_cases hnone : cs.takeWhile isDigit = []
            · rw [hnone]
              exact .point ⟨hsome.resolve_left (not_not_intro hnone), hdigits behind⟩
            · exact .pointed ⟨hnone, hdigits cs⟩ (hdigits behind)
  · split at h
    · cases h
    · next hsome =>
        simp only [Option.some.injEq, Prod.mk.injEq] at h
        obtain ⟨rfl, rfl, rfl⟩ := h
        rw [List.isEmpty_iff] at hsome
        exact ⟨_, hwhole.symm, .whole ⟨hsome, hdigits cs⟩⟩

theorem takeExponent_written (cs : List Char) :
    ∃ x, cs = x ++ (takeExponent cs).2 ∧ PowerWritten (takeExponent cs).1 x := by
  unfold takeExponent
  split
  · next mark behind =>
      split
      · next hmark =>
          rw [Bool.or_eq_true, beq_iff_eq, beq_iff_eq] at hmark
          obtain ⟨s, hs, hbehind, hnegative⟩ := takeSign_written behind
          dsimp only
          split
          · exact ⟨[], rfl, .none⟩
          · next hsome =>
              rw [List.isEmpty_iff] at hsome
              refine ⟨mark :: (s ++ (takeSign behind).2.takeWhile isDigit), ?_, ?_⟩
              · rw [List.cons_append, List.append_assoc, List.takeWhile_append_dropWhile, ← hbehind]
              · have hpower := PowerWritten.power hmark hs
                  ⟨hsome, fun c hc => List.mem_takeWhile_imp hc⟩
                rw [hnegative]
                simpa only [decide_eq_true_eq] using hpower
      · exact ⟨[], rfl, .none⟩
  · exact ⟨[], rfl, .none⟩

/-- What is read of a text is a numeral at its start. -/
theorem longest?_written {n : Numeral} (h : longest? cs = some (n, rest)) :
    ∃ taken, cs = taken ++ rest ∧ n.WrittenAs taken := by
  obtain ⟨s, hs, hsign, hnegative⟩ := takeSign_written cs
  unfold longest? at h
  dsimp only at h
  split at h
  · cases h
  · next whole fraction behind hmantissa =>
      simp only [Option.some.injEq, Prod.mk.injEq] at h
      obtain ⟨rfl, rfl⟩ := h
      obtain ⟨m, hm, hwritten⟩ := takeMantissa?_written hmantissa
      obtain ⟨x, hx, hpower⟩ := takeExponent_written behind
      refine ⟨s ++ (m ++ x), ?_, ?_⟩
      · rw [List.append_assoc, List.append_assoc, ← hx, ← hm, ← hsign]
      · rw [hnegative]
        exact .intro hs hwritten hpower

-- ======================================================== how far the reader gets

/-- A sign is read in front of what begins with none. -/
theorem takeSign_of_head (hs : IsSign s) (h : ∀ c ∈ cs.head?, c ≠ '+' ∧ c ≠ '-') :
    takeSign (s ++ cs) = (decide (s = ['-']), cs) := by
  cases hs with
  | plus => rfl
  | minus => rfl
  | none =>
      cases cs with
      | nil => rfl
      | cons c cs =>
          obtain ⟨hplus, hminus⟩ := h c rfl
          simp only [List.nil_append, takeSign]
          split <;> simp_all

/-- Where a point stands behind the digits, it is taken with those behind it. -/
theorem takeMantissa?_of_point {behind : List Char} (hdrop : cs.dropWhile isDigit = '.' :: behind)
    (hsome : cs.takeWhile isDigit ≠ [] ∨ behind.takeWhile isDigit ≠ []) :
    takeMantissa? cs
      = some (cs.takeWhile isDigit, behind.takeWhile isDigit, behind.dropWhile isDigit) := by
  unfold takeMantissa?
  simp only [hdrop]
  rw [if_neg]
  rw [Bool.and_eq_true, List.isEmpty_iff, List.isEmpty_iff]
  exact fun hnone => hsome.elim (· hnone.1) (· hnone.2)

/-- Where none does, the digits are all. -/
theorem takeMantissa?_of_no_point (hdrop : ∀ c ∈ (cs.dropWhile isDigit).head?, c ≠ '.')
    (hsome : cs.takeWhile isDigit ≠ []) :
    takeMantissa? cs = some (cs.takeWhile isDigit, [], cs.dropWhile isDigit) := by
  unfold takeMantissa?
  dsimp only
  split
  · next heq => exact absurd rfl (hdrop '.' (by rw [heq]; rfl))
  · rw [if_neg (by simpa using hsome)]

/-- A mantissa is read up to what is no digit and no point. -/
theorem MantissaWritten.takeMantissa? (h : MantissaWritten w f m)
    (hrest : ∀ c ∈ rest.head?, isDigit c = false ∧ c ≠ '.') :
    Numeral.takeMantissa? (m ++ rest) = some (w, f, rest) := by
  have hdigit : ∀ c ∈ rest.head?, isDigit c = false := fun c hc => (hrest c hc).1
  have hpoint : ∀ ds : List Char, ∀ c ∈ ('.' :: ds).head?, isDigit c = false := by
    rintro ds _ ⟨⟩
    decide
  cases h with
  | whole hw =>
      obtain ⟨htake, hdrop⟩ := takeWhile_run hw.2 hdigit
      rw [takeMantissa?_of_no_point (by rw [hdrop]; exact fun c hc => (hrest c hc).2)
        (by rw [htake]; exact hw.1), htake, hdrop]
  | pointed hw hf =>
      rw [List.append_assoc, List.cons_append]
      obtain ⟨htake, hdrop⟩ := takeWhile_run hw.2 (hpoint (f ++ rest))
      obtain ⟨htake', hdrop'⟩ := takeWhile_run hf hdigit
      rw [takeMantissa?_of_point hdrop (Or.inl (by rw [htake]; exact hw.1)), htake, htake', hdrop']
  | point hf =>
      obtain ⟨htake, hdrop⟩ :=
        takeWhile_run (show ∀ c ∈ [], isDigit c = true by simp) (hpoint (f ++ rest))
      obtain ⟨htake', hdrop'⟩ := takeWhile_run hf.2 hdigit
      rw [List.nil_append] at htake hdrop
      rw [List.cons_append, takeMantissa?_of_point hdrop (Or.inr (by rw [htake']; exact hf.1)),
        htake, htake', hdrop']

theorem length_dropWhile_le (cs : List Char) : (cs.dropWhile isDigit).length ≤ cs.length :=
  (List.dropWhile_suffix isDigit).length_le

/-- Whatever stands behind a mantissa, one is read that is no shorter. -/
theorem MantissaWritten.reaches (h : MantissaWritten w f m) (rest : List Char) :
    ∃ w' f' rest', Numeral.takeMantissa? (m ++ rest) = some (w', f', rest')
      ∧ rest'.length ≤ rest.length := by
  have hpoint : ∀ ds : List Char, ('.' :: ds).dropWhile isDigit = '.' :: ds :=
    fun ds => List.dropWhile_cons_of_neg (by decide)
  cases h with
  | whole hw =>
      have hsome : (w ++ rest).takeWhile isDigit ≠ [] := by
        rw [List.takeWhile_append_of_pos hw.2]
        simp [hw.1]
      have hdrop : (w ++ rest).dropWhile isDigit = rest.dropWhile isDigit :=
        List.dropWhile_append_of_pos hw.2
      -- What follows may go on with digits, and then with a point and more of them; all of that
      -- is taken as well.
      by_cases hbehind : ∃ behind, rest.dropWhile isDigit = '.' :: behind
      · obtain ⟨behind, hbehind⟩ := hbehind
        refine ⟨_, _, _, takeMantissa?_of_point (hdrop.trans hbehind) (Or.inl hsome), ?_⟩
        have hlonger := length_dropWhile_le rest
        rw [hbehind, List.length_cons] at hlonger
        exact Nat.le_trans (length_dropWhile_le behind) (Nat.le_of_succ_le hlonger)
      · refine ⟨_, _, _, takeMantissa?_of_no_point ?_ hsome, ?_⟩
        · rintro c hc rfl
          rw [hdrop] at hc
          obtain ⟨behind, heq⟩ := List.head?_eq_some_iff.1 hc
          exact hbehind ⟨behind, heq⟩
        · rw [hdrop]
          exact length_dropWhile_le rest
  | pointed hw hf =>
      rw [List.append_assoc, List.cons_append]
      have hdrop : (w ++ '.' :: (f ++ rest)).dropWhile isDigit = '.' :: (f ++ rest) := by
        rw [List.dropWhile_append_of_pos hw.2, hpoint]
      refine ⟨_, _, _, takeMantissa?_of_point hdrop (Or.inl ?_), ?_⟩
      · rw [List.takeWhile_append_of_pos hw.2]
        simp [hw.1]
      · rw [List.dropWhile_append_of_pos hf]
        exact length_dropWhile_le rest
  | point hf =>
      rw [List.cons_append]
      refine ⟨_, _, _, takeMantissa?_of_point (hpoint _) (Or.inr ?_), ?_⟩
      · rw [List.takeWhile_append_of_pos hf.2]
        simp [hf.1]
      · rw [List.dropWhile_append_of_pos hf.2]
        exact length_dropWhile_le rest

theorem length_takeExponent_le (cs : List Char) : (takeExponent cs).2.length ≤ cs.length := by
  obtain ⟨x, hx, -⟩ := takeExponent_written cs
  have hlength := congrArg List.length hx
  rw [List.length_append] at hlength
  omega

/-- A power is read with all the digits behind it. -/
theorem takeExponent_of_mark {mark : Char} (hmark : mark = 'e' ∨ mark = 'E') (hs : IsSign s)
    (hd : IsRun d) (rest : List Char) :
    takeExponent (mark :: (s ++ (d ++ rest)))
      = (if s = ['-'] then -(digitsValue (d ++ rest.takeWhile isDigit) : Int)
          else digitsValue (d ++ rest.takeWhile isDigit), rest.dropWhile isDigit) := by
  have hmark' : (mark == 'e' || mark == 'E') = true := by
    rcases hmark with rfl | rfl <;> rfl
  have hsign : takeSign (s ++ (d ++ rest)) = (decide (s = ['-']), d ++ rest) :=
    takeSign_of_head hs (ne_sign_of_head fun c hc => Or.inl (hd.head rest c hc))
  simp only [takeExponent, hmark', ↓reduceIte, hsign, List.takeWhile_append_of_pos hd.2,
    List.dropWhile_append_of_pos hd.2]
  rw [if_neg (by simp [hd.1])]
  simp only [decide_eq_true_eq]

/-- Where no power of ten can be read, none is. -/
theorem takeExponent_of_stops (h : (takeExponent rest).2 = rest) :
    takeExponent rest = (0, rest) := by
  obtain ⟨x, hx, hpower⟩ := takeExponent_written rest
  rw [h] at hx
  obtain rfl := List.self_eq_append_left.1 hx
  refine Prod.ext ?_ h
  generalize (takeExponent rest).1 = exponent at hpower
  cases hpower
  rfl

/-- A power is read up to what cannot continue a number. -/
theorem PowerWritten.takeExponent (h : PowerWritten exponent x) (hrest : StopsNumber rest) :
    Numeral.takeExponent (x ++ rest) = (exponent, rest) := by
  cases h with
  | none => exact takeExponent_of_stops hrest.2
  | @power mark s d hmark hs hd =>
      obtain ⟨htake, hdrop⟩ := takeWhile_run (show ∀ c ∈ [], isDigit c = true by simp)
        fun c hc => (hrest.1 c hc).1
      rw [List.nil_append] at htake hdrop
      rw [List.cons_append, List.append_assoc, takeExponent_of_mark hmark hs hd, htake, hdrop,
        List.append_nil]

/-- A numeral is read as what it is written for, up to what cannot continue
it. -/
theorem WrittenAs.longest?_append {n : Numeral} {taken : List Char} (h : n.WrittenAs taken)
    (hrest : StopsNumber rest) : Numeral.longest? (taken ++ rest) = some (n, rest) := by
  obtain ⟨hs, hm, hx⟩ := h
  rename_i s w f m x exponent
  have hsign := takeSign_of_head hs (ne_sign_of_head (hm.head (x ++ rest)))
  have hmantissa := hm.takeMantissa? (hx.head hrest.1)
  unfold Numeral.longest?
  rw [List.append_assoc, List.append_assoc, hsign]
  simp only [hmantissa, hx.takeExponent hrest]

theorem WrittenAs.longest? {n : Numeral} (h : n.WrittenAs cs) : longest? cs = some (n, []) := by
  have hread := h.longest?_append stopsNumber_nil
  rwa [List.append_nil] at hread

/-- Of a text that begins with a numeral, one is read that is no shorter. -/
theorem longest?_reaches {n : Numeral} {taken : List Char} (h : n.WrittenAs taken)
    (rest : List Char) :
    ∃ n' rest', longest? (taken ++ rest) = some (n', rest') ∧ rest'.length ≤ rest.length := by
  obtain ⟨hs, hm, hx⟩ := h
  rename_i s w f m x exponent
  have hsign := takeSign_of_head hs (ne_sign_of_head (hm.head (x ++ rest)))
  rw [List.append_assoc, List.append_assoc]
  unfold longest?
  rw [hsign]
  -- The mantissa of the reader may be longer than the given one only where no power follows.
  cases hx with
  | none =>
      obtain ⟨w', f', rest', hread, hshort⟩ := hm.reaches rest
      simp only [List.nil_append, hread]
      exact ⟨_, _, rfl, Nat.le_trans (length_takeExponent_le rest') hshort⟩
  | @power mark g d hmark hg hd =>
      rw [List.cons_append, List.append_assoc]
      have hread : takeMantissa? (m ++ mark :: (g ++ (d ++ rest)))
          = some (w, f, mark :: (g ++ (d ++ rest))) := by
        refine hm.takeMantissa? ?_
        rintro _ ⟨⟩
        exact isDigit_of_mark hmark
      simp only [hread, takeExponent_of_mark hmark hg hd]
      exact ⟨_, _, rfl, length_dropWhile_le rest⟩

-- ============================================================== what is longest

/-- What is read is the longest numeral at the start of a text. -/
theorem longest?_eq_some_iff {n : Numeral} : longest? cs = some (n, rest) ↔
    ∃ taken, cs = taken ++ rest ∧ n.WrittenAs taken ∧ LongestIn taken cs := by
  constructor
  · intro h
    obtain ⟨taken, rfl, hwritten⟩ := longest?_written h
    refine ⟨taken, rfl, hwritten, List.prefix_append taken rest, ⟨n, hwritten⟩, ?_⟩
    rintro other ⟨behind, hother⟩ ⟨n', hn'⟩
    -- Any other numeral in front would have left no less than the reader did.
    obtain ⟨n'', rest', hread, hshort⟩ := longest?_reaches hn' behind
    rw [hother, h] at hread
    cases hread
    have hlength := congrArg List.length hother
    rw [List.length_append, List.length_append] at hlength
    omega
  · rintro ⟨taken, rfl, hwritten, hlongest⟩
    obtain ⟨n', rest', hread, hshort⟩ := longest?_reaches hwritten rest
    obtain ⟨taken', heq, hwritten'⟩ := longest?_written hread
    -- The reader gets no further either, so both took the same, which spells one numeral only.
    have hlonger := hlongest.longest taken' (heq ▸ List.prefix_append taken' rest') ⟨n', hwritten'⟩
    have hlength := congrArg List.length heq
    rw [List.length_append, List.length_append] at hlength
    obtain ⟨rfl, rfl⟩ := List.append_inj heq (by omega)
    have hsame := hwritten.longest?.symm.trans hwritten'.longest?
    rw [hread, (Prod.mk.inj (Option.some.inj hsame)).1]

-- ================================================================ standing alone

/-- None of the characters of a numeral is blank, and none parts digits. -/
theorem WrittenAs.plain {n : Numeral} (h : n.WrittenAs cs) :
    ∀ c ∈ cs, isBlank c = false ∧ c ≠ '_' := by
  intro c hc
  rcases h.letters c hc with hdigit | hother
  · constructor
    · rw [Bool.eq_false_iff]
      intro hblank
      rw [of_isBlank (p := fun c => isDigit c = false) hblank (by decide +kernel)] at hdigit
      cases hdigit
    · rintro rfl
      exact absurd hdigit (by decide)
  · exact forall_mem_of_all (p := fun c => isBlank c = false ∧ c ≠ '_') (by decide) c hother

end Numeral

namespace Decimal

/-- Where no underscore stands, none is removed. -/
theorem joinDigits?_plain {cs : List Char} (h : ∀ c ∈ cs, c ≠ '_') (afterDigit : Bool) :
    joinDigits? afterDigit cs = some cs := by
  induction cs generalizing afterDigit with
  | nil => rfl
  | cons c cs ih =>
      rw [List.forall_mem_cons] at h
      unfold joinDigits?
      split
      · next heq => cases heq
      · next heq => exact absurd (List.cons.inj heq).1 h.1
      · next heq =>
          obtain ⟨rfl, rfl⟩ := List.cons.inj heq
          rw [ih h.2]
          rfl

/-- In the free form a numeral is read as its number. -/
theorem read?_of_writtenAs {n : Numeral} {cs : List Char} (h : n.WrittenAs cs) :
    read? cs = some n.toFloat := by
  have htrim : trimBy isSpacing cs = cs := by
    refine trimBy_eq_self fun c hc => ?_
    rw [Bool.eq_false_iff]
    intro hspacing
    have hblank := isSpacing_isBlank hspacing
    rw [(h.plain c hc).1] at hblank
    cases hblank
  unfold read? plain? numeral?
  rw [htrim, joinDigits?_plain (fun c hc => (h.plain c hc).2), Option.bind_some, h.longest?]

end Decimal

end UnitCalc
