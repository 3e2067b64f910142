/-
A spelled quantity is kept whole.

`Scan.Keeps` says that a run goes on with some more characters in its literal
and nothing else changed. It composes (`Scan.Keeps.trans`), so the parts of a
quantity are kept one after the other: sign, mantissa, power, unit
(`keeps_quantity`). Every part needs to know two things of what came before it,
the text that was collected and whether a word goes on, and each lemma hands
them to the next.

# What is in doubt

Only four of the characters ever are. A sign is one where an operand is due and
a number follows. The sign of an exponent stands between its mark and a digit,
behind a number. The percent sign is a unit behind a number at the end of the
literal. In a letter no word may begin, which holds of those behind a number,
because the number is part of a word (`isWordPart`).

Whatever comes behind a number, the number itself is kept (`keeps_number`);
only for the percent sign it matters what follows (`StopsLiteral`). Printed
operands are quantities in this sense, which `Proofs/Parsing/Printing` uses.
-/
import UnitCalc.Proofs.Scan.Moves

namespace UnitCalc

open Text

variable {s s' : Scan} {resolution : Value} {canonical : String}

/-- The lexicon of the standard table and units. -/
abbrev Lexicon.standard (resolution : Value) (canonical : String) : Lexicon :=
  .of .standard (.standard resolution canonical)

/-- No blank is part of a word. -/
theorem isBlank_of_isWordPart {c : Char} (h : isWordPart c = true) : isBlank c = false := by
  rw [Bool.eq_false_iff]
  intro hblank
  have hpart : isWordPart c = false :=
    of_isBlank (p := fun c => isWordPart c = false) hblank (by decide +kernel)
  rw [h] at hpart
  cases hpart

-- ============================================================= being kept

/-- A scan that has kept some characters. -/
structure Scan.Keeps (lexicon : Lexicon) (s : Scan) (kept : List Char) (s' : Scan) : Prop where
  run : Scan.run lexicon s = Scan.run lexicon s'
  rest : s.rest = kept ++ s'.rest
  buffer : s'.buffer = s.buffer ++ kept
  segments : s'.segments = s.segments
  frames : s'.frames = s.frames
  preceding : s'.preceding = kept.getLast?.or s.preceding

namespace Scan.Keeps

variable {lexicon : Lexicon}

theorem refl (s : Scan) : Keeps lexicon s [] s :=
  ⟨rfl, rfl, (List.append_nil _).symm, rfl, rfl, rfl⟩

theorem trans {s'' : Scan} {v w : List Char} (h : Keeps lexicon s v s')
    (h' : Keeps lexicon s' w s'') : Keeps lexicon s (v ++ w) s'' where
  run := h.run.trans h'.run
  rest := by rw [h.rest, h'.rest, List.append_assoc]
  buffer := by rw [h'.buffer, h.buffer, List.append_assoc]
  segments := h'.segments.trans h.segments
  frames := h'.frames.trans h.frames
  preceding := by rw [h'.preceding, h.preceding, List.getLast?_append, Option.or_assoc]

/-- One character that the scan keeps. -/
theorem one {c : Char} {tail : List Char} (hrest : s.rest = c :: tail)
    (hmove : lexicon.move s c tail = .ok .keep) :
    Keeps lexicon s [c] (s.apply lexicon.symbols c tail .keep) :=
  ⟨Scan.run_move hrest hmove, hrest, rfl, rfl, rfl, rfl⟩

/-- What has been kept of a word continues it. -/
theorem preceding_any {v : List Char} (h : Keeps lexicon s v s') (hne : v ≠ [])
    (hv : ∀ c ∈ v, isWordPart c = true) : s'.preceding.any isWordPart = true := by
  rw [h.preceding, List.getLast?_eq_some_getLast hne]
  exact hv _ (List.getLast_mem hne)

end Scan.Keeps

-- ================================================================ letters

/-- A character that can only be part of a literal or of a word. -/
def IsLiteralLetter (c : Char) : Prop :=
  structural? c = none ∧ isGap c = false ∧ isWordPart c = true
    ∧ (SymbolTable.standard.operatorOf? c).isNone = true

/-- The four tests are made one after the other. -/
instance (c : Char) : Decidable (IsLiteralLetter c) :=
  inferInstanceAs (Decidable (_ ∧ _ ∧ _ ∧ _))

/-- Letters and digits are kept inside of a word and where none begins. -/
theorem keeps_letters (units : UnitRegistry) (hs : ∀ frame ∈ s.frames, frame.Settled)
    {v k : List Char} (hv : ∀ c ∈ v, IsLiteralLetter c)
    (hword : (∀ c ∈ v.head?, isWordStart c = false) ∨ s.preceding.any isWordPart = true)
    (hrest : s.rest = v ++ k) :
    ∃ s', Scan.Keeps (.of .standard units) s v s' ∧ s'.rest = k := by
  induction v generalizing s with
  | nil => exact ⟨s, .refl s, hrest⟩
  | cons c v ih =>
      obtain ⟨hstructural, hgap, hpart, hoperator⟩ := hv c List.mem_cons_self
      have hmove : (Lexicon.of .standard units).move s c (v ++ k) = .ok .keep := by
        refine move_keep hs hstructural ?_ hgap ?_
        · rcases hword with h | h
          · exact Or.inl (h c rfl)
          · exact Or.inr h
        · rw [Option.isNone_iff_eq_none.1 hoperator]
          rfl
      have hone := Scan.Keeps.one hrest hmove
      -- Behind the first letter the rest is inside of a word, however it begins.
      obtain ⟨s', hkeeps, hbehind⟩ := ih (s := s.apply _ c (v ++ k) .keep) hs
        (fun d hd => hv d (List.mem_cons_of_mem c hd)) (Or.inr hpart) rfl
      exact ⟨s', hone.trans hkeeps, hbehind⟩

theorem isLiteralLetter_digit {c : Char} (h : isAsciiDigit c = true) :
    IsLiteralLetter c ∧ isWordStart c = false :=
  of_isAsciiDigit (p := fun c => IsLiteralLetter c ∧ isWordStart c = false) h (by decide)

/-- The letters of a mantissa; none of them begins a word. -/
theorem IsMantissa.letters {m : List Char} (hm : IsMantissa m) :
    m ≠ [] ∧ ∀ c ∈ m, IsLiteralLetter c ∧ isWordStart c = false := by
  have hpoint : IsLiteralLetter '.' ∧ isWordStart '.' = false := by decide
  cases hm with
  | whole hw => exact ⟨hw.1, fun c hc => isLiteralLetter_digit (hw.2 c hc)⟩
  | pointed hw hf =>
      refine ⟨by simp, ?_⟩
      intro c hc
      rcases List.mem_append.1 hc with hc | hc
      · exact isLiteralLetter_digit (hw.2 c hc)
      · rcases List.mem_cons.1 hc with rfl | hc
        · exact hpoint
        · exact isLiteralLetter_digit (hf c hc)
  | point hf =>
      refine ⟨by simp, ?_⟩
      intro c hc
      rcases List.mem_cons.1 hc with rfl | hc
      · exact hpoint
      · exact isLiteralLetter_digit (hf.2 c hc)

-- =============================================================== the parts

/-- A scan where an operand may begin. -/
structure Scan.Awaits (s : Scan) : Prop where
  buffer : s.buffer = []
  due : operandDue s.segments.getLast? = true
  settled : ∀ frame ∈ s.frames, frame.Settled
  preceding : s.preceding.any isWordPart = false

/-- A sign is kept where it is one of a number or of an exponent. -/
theorem keeps_sign (units : UnitRegistry) (hs : ∀ frame ∈ s.frames, frame.Settled)
    {g k : List Char} (hg : IsSign g)
    (hkept : ∀ c ∈ g, ∀ operator : OperatorSymbol, operator.unary = true →
      (s.isSign operator k || s.isExponentSign c k) = true)
    (hrest : s.rest = g ++ k) :
    ∃ s', Scan.Keeps (.of .standard units) s g s' ∧ s'.rest = k := by
  have hone : ∀ c, s.rest = c :: k → structural? c = none → isWordStart c = false →
      isGap c = false → (∃ operator, SymbolTable.standard.operatorOf? c = some operator
        ∧ (s.isSign operator k || s.isExponentSign c k) = true) →
      ∃ s', Scan.Keeps (.of .standard units) s [c] s' ∧ s'.rest = k := by
    intro c hcons hstructural hstart hgap hsome
    obtain ⟨operator, hoperator, hsign⟩ := hsome
    refine ⟨_, .one hcons (move_keep hs hstructural (Or.inl hstart) hgap ?_), rfl⟩
    rw [hoperator, Option.all_some, hsign, Bool.true_or]
  cases hg with
  | none => exact ⟨s, .refl s, hrest⟩
  | plus =>
      refine hone '+' hrest rfl (by decide) rfl ⟨_, rfl, ?_⟩
      exact hkept '+' (List.mem_singleton.2 rfl) _ rfl
  | minus =>
      refine hone '-' hrest rfl (by decide) rfl ⟨_, rfl, ?_⟩
      exact hkept '-' (List.mem_singleton.2 rfl) _ rfl

/-- Where an operand may begin, a sign in front of a mantissa is one. -/
theorem Scan.Awaits.isSign (hs : s.Awaits) {m : List Char} (hm : IsMantissa m) (k : List Char)
    {operator : OperatorSymbol} (hunary : operator.unary = true) :
    s.isSign operator (m ++ k) = true := by
  have hstarts : Scan.startsNumber (m ++ k) = true := by
    obtain ⟨c, tail, heq, hc⟩ := hm.head k
    rw [heq]
    -- A mantissa begins with a digit, or with the point and a digit.
    rcases hc with hc | ⟨rfl, d, more, rfl, hd⟩
    · unfold Scan.startsNumber
      split
      · next heq =>
          obtain ⟨rfl, -⟩ := List.cons.inj heq
          exact absurd hc (by decide)
      · next heq =>
          obtain ⟨rfl, -⟩ := List.cons.inj heq
          exact hc
      · next heq => cases heq
    · exact hd
  unfold Scan.isSign
  rw [hunary, hs.buffer, hs.due, hstarts]
  rfl

/-- Behind a number and the mark of an exponent a sign in front of digits is
one. -/
theorem isExponentSign_of_number {n d k : List Char} {mark c : Char} (hn : IsNumber n)
    (hmark : mark = 'e' ∨ mark = 'E') (hd : IsDigits d) (hc : c = '+' ∨ c = '-')
    (hbuffer : s.buffer = n ++ [mark]) : s.isExponentSign c (d ++ k) = true := by
  obtain ⟨first, more, hfirst, hblank⟩ := hn.head
  obtain ⟨digit, digits, rfl⟩ := List.exists_cons_of_ne_nil hd.1
  have htrim : trimStart s.buffer = n ++ [mark] := by
    rw [hbuffer, hfirst]
    unfold trimStart
    rw [List.cons_append, List.dropWhile_cons_of_neg (by simp [hblank])]
  have hsign : (c == '+' || c == '-') = true := by
    rcases hc with rfl | rfl <;> rfl
  have hmarks : (mark == 'e' || mark == 'E') = true := by
    rcases hmark with rfl | rfl <;> rfl
  have hlength : decide (2 ≤ (n ++ [mark]).length) = true := by
    rw [hfirst]
    simp
  have hdigit : isAsciiDigit digit = true := hd.2 digit List.mem_cons_self
  unfold Scan.isExponentSign
  simp only [htrim, hsign, hlength, List.getLast?_concat, Option.any_some, hmarks,
    List.dropLast_concat, hn.isNumberText, List.cons_append, List.head?_cons, hdigit,
    Bool.and_self]

/-- A power of ten is kept behind a number. -/
theorem keeps_exponent (units : UnitRegistry) (hs : ∀ frame ∈ s.frames, frame.Settled)
    {n x k : List Char} (hx : IsExponent x) (hn : IsNumber n) (hbuffer : s.buffer = n)
    (hpart : s.preceding.any isWordPart = true) (hrest : s.rest = x ++ k) :
    ∃ s', Scan.Keeps (.of .standard units) s x s' ∧ s'.rest = k
      ∧ s'.preceding.any isWordPart = true := by
  cases hx with
  | none => exact ⟨s, .refl s, hrest, hpart⟩
  | @power mark g d hmark hg hd =>
      have hletter : IsLiteralLetter mark := by
        rcases hmark with rfl | rfl <;> decide
      have hrest' : s.rest = [mark] ++ (g ++ (d ++ k)) := by
        rw [hrest, List.cons_append, List.append_assoc, List.singleton_append]
      -- The mark is a letter behind the number; the sign asks for the number before the mark.
      obtain ⟨s1, hmarked, hrest1⟩ := keeps_letters units hs
        (fun c hc => by rwa [List.mem_singleton.1 hc]) (Or.inr hpart) hrest'
      have hsettled1 : ∀ frame ∈ s1.frames, frame.Settled := by rwa [hmarked.frames]
      have hbuffer1 : s1.buffer = n ++ [mark] := by rw [hmarked.buffer, hbuffer]
      obtain ⟨s2, hsigned, hrest2⟩ := keeps_sign units hsettled1 hg
        (fun c hc operator _ => by
          have hsign : c = '+' ∨ c = '-' := by
            cases hg with
            | none => cases hc
            | plus => exact Or.inl (List.mem_singleton.1 hc)
            | minus => exact Or.inr (List.mem_singleton.1 hc)
          rw [isExponentSign_of_number hn hmark hd hsign hbuffer1, Bool.or_true]) hrest1
      have hsettled2 : ∀ frame ∈ s2.frames, frame.Settled := by rwa [hsigned.frames]
      have hdigits : ∀ c ∈ d, IsLiteralLetter c ∧ isWordStart c = false :=
        fun c hc => isLiteralLetter_digit (hd.2 c hc)
      obtain ⟨s3, hkept, hrest3⟩ := keeps_letters units hsettled2
        (fun c hc => (hdigits c hc).1)
        (Or.inl fun c hc => (hdigits c (List.mem_of_mem_head? hc)).2) hrest2
      refine ⟨s3, hmarked.trans (hsigned.trans hkept), hrest3, ?_⟩
      exact hkept.preceding_any hd.1 fun c hc => (hdigits c hc).1.2.2.1

-- ============================================================ the quantity

/-- What may stand behind a literal. -/
def StopsLiteral (k : List Char) : Prop :=
  ∀ c ∈ k.head?, c = ' ' ∨ c = ')' ∨ c = ','

/-- The units of the standard registry: the percent sign, and names of
letters. -/
theorem standard_isUnit {unit : String}
    (h : (UnitRegistry.standard resolution canonical).isUnit unit = true) :
    unit = "%" ∨ ∀ c ∈ unit.toList, IsLiteralLetter c := by
  have hmem : unit ∈ ["pt", "cm", "pt", "in", "pt", "mm", "", "%", "pt", "pc", "pt", "pica", "pt",
      "px"] := by
    unfold UnitRegistry.isUnit at h
    rw [Bool.and_eq_true, List.contains_iff_mem] at h
    exact h.2
  simp only [List.mem_cons, List.not_mem_nil, or_false] at hmem
  by_cases hpercent : unit = "%"
  · exact Or.inl hpercent
  · right
    rcases hmem with rfl | rfl | rfl | rfl | rfl | rfl | rfl | rfl | rfl | rfl | rfl | rfl | rfl
      | rfl
    all_goals first | exact forall_mem_of_all (by decide) | exact absurd rfl hpercent

/-- A number is kept where an operand may begin, whatever stands behind
it. -/
theorem keeps_number (units : UnitRegistry) (hs : s.Awaits) {n k : List Char} (hn : IsNumber n)
    (hrest : s.rest = n ++ k) :
    ∃ s', Scan.Keeps (.of .standard units) s n s' ∧ s'.rest = k
      ∧ s'.preceding.any isWordPart = true := by
  obtain ⟨hg, hm, hx⟩ := hn
  rename_i g m x
  rw [List.append_assoc, List.append_assoc] at hrest
  obtain ⟨s1, hsigned, hrest1⟩ := keeps_sign units hs.settled hg
    (fun c _ operator hunary => by rw [hs.isSign hm (x ++ k) hunary, Bool.true_or]) hrest
  have hsettled1 : ∀ frame ∈ s1.frames, frame.Settled := by
    rw [hsigned.frames]
    exact hs.settled
  obtain ⟨hne, hletters⟩ := hm.letters
  obtain ⟨s2, hkept, hrest2⟩ := keeps_letters units hsettled1
    (fun c hc => (hletters c hc).1)
    (Or.inl fun c hc => (hletters c (List.mem_of_mem_head? hc)).2) hrest1
  have hsettled2 : ∀ frame ∈ s2.frames, frame.Settled := by rwa [hkept.frames]
  have hbuffer2 : s2.buffer = g ++ (m ++ []) := by
    rw [hkept.buffer, hsigned.buffer, hs.buffer, List.append_nil, List.nil_append]
  have hpart2 := hkept.preceding_any hne fun c hc => (hletters c hc).1.2.2.1
  obtain ⟨s3, hpower, hrest3, hpart3⟩ := keeps_exponent units hsettled2 hx
    (.intro hg hm .none) hbuffer2 hpart2 hrest2
  exact ⟨s3, hsigned.trans (hkept.trans hpower), hrest3, hpart3⟩

/-- Behind a number, the percent sign at the end of a literal is a unit. -/
theorem isUnitSuffix_percent {n k : List Char} (hn : IsNumber n) (hbuffer : s.buffer = n)
    (hpart : s.buffer.getLast?.any isWordPart = true) (hk : StopsLiteral k) :
    s.isUnitSuffix (.standard resolution canonical) '%' k = true := by
  have hlast : s.buffer.getLast?.any (fun last => !isGap last) = true := by
    cases hc : s.buffer.getLast? with
    | none =>
        rw [hc] at hpart
        cases hpart
    | some c =>
        rw [hc, Option.any_some] at hpart
        have hgap : isGap c = false := by
          rw [Bool.eq_false_iff]
          intro hgap
          have hblank := isSpacing_isBlank (isGap_isSpacing hgap)
          rw [isBlank_of_isWordPart hpart] at hblank
          cases hblank
        rw [Option.any_some, hgap]
        rfl
  have hbehind : (k.head?.all fun next => isGap next || next == ')' || next == ',') = true := by
    cases hc : k.head? with
    | none => rfl
    | some c =>
        rcases hk c hc with rfl | rfl | rfl <;> rfl
  have hnumber : Quantity.isNumberText s.buffer = true := by
    rw [hbuffer]
    exact hn.isNumberText
  have hunit : (UnitRegistry.standard resolution canonical).isUnit (String.singleton '%') = true :=
    rfl
  unfold Scan.isUnitSuffix
  rw [hunit, hlast, hnumber, hbehind]
  rfl

/-- Nothing of a quantity is blank. -/
theorem IsQuantity.not_blank {cs : List Char}
    (h : IsQuantity (.standard resolution canonical) cs) : ∀ c ∈ cs, isBlank c = false := by
  have hsign : ∀ g, IsSign g → ∀ c ∈ g, isBlank c = false := by
    rintro _ (_ | _ | _) <;> exact forall_mem_of_all (by decide)
  have hmantissa : ∀ m, IsMantissa m → ∀ c ∈ m, isBlank c = false :=
    fun m hm c hc => isBlank_of_isWordPart (hm.letters.2 c hc).1.2.2.1
  have hexponent : ∀ x, IsExponent x → ∀ c ∈ x, isBlank c = false := by
    rintro _ (_ | ⟨hmark, hg, hd⟩) c hc
    · cases hc
    · rcases List.mem_cons.1 hc with rfl | hc
      · rcases hmark with rfl | rfl <;> decide
      · rcases List.mem_append.1 hc with hc | hc
        · exact hsign _ hg c hc
        · exact isBlank_of_isWordPart (isLiteralLetter_digit (hd.2 c hc)).1.2.2.1
  have hnumber : ∀ n, IsNumber n → ∀ c ∈ n, isBlank c = false := by
    rintro _ ⟨hg, hm, hx⟩ c hc
    rcases List.mem_append.1 hc with hc | hc
    · exact hsign _ hg c hc
    · rcases List.mem_append.1 hc with hc | hc
      · exact hmantissa _ hm c hc
      · exact hexponent _ hx c hc
  intro c hc
  cases h with
  | plain hn => exact hnumber cs hn c hc
  | ofUnit hn hunit =>
      rcases List.mem_append.1 hc with hc | hc
      · exact hnumber _ hn c hc
      · rcases standard_isUnit hunit with rfl | hletters
        · obtain rfl := List.mem_singleton.1 hc
          decide
        · exact isBlank_of_isWordPart (hletters c hc).2.2.1

theorem IsQuantity.ne_nil {units : UnitRegistry} {cs : List Char} (h : IsQuantity units cs) :
    cs ≠ [] := by
  cases h with
  | plain hn =>
      obtain ⟨c, tail, rfl, -⟩ := hn.head
      simp
  | ofUnit hn _ =>
      obtain ⟨c, tail, rfl, -⟩ := hn.head
      simp

/-- A quantity is kept whole where an operand may begin. -/
theorem keeps_quantity (hs : s.Awaits) {cs k : List Char}
    (hcs : IsQuantity (.standard resolution canonical) cs) (hk : StopsLiteral k)
    (hrest : s.rest = cs ++ k) :
    ∃ s', Scan.Keeps (.standard resolution canonical) s cs s' ∧ s'.rest = k := by
  cases hcs with
  | plain hn =>
      obtain ⟨s', hkept, hbehind, -⟩ := keeps_number (.standard resolution canonical) hs hn hrest
      exact ⟨s', hkept, hbehind⟩
  | @ofUnit n unit hn hunit =>
      rw [List.append_assoc] at hrest
      obtain ⟨s1, hkept, hrest1, hpart1⟩ :=
        keeps_number (.standard resolution canonical) hs hn hrest
      have hsettled1 : ∀ frame ∈ s1.frames, frame.Settled := by
        rw [hkept.frames]
        exact hs.settled
      rcases standard_isUnit hunit with rfl | hletters
      · have hbuffer1 : s1.buffer = n := by rw [hkept.buffer, hs.buffer, List.nil_append]
        have hlast : s1.buffer.getLast?.any isWordPart = true := by
          have hpreceding := hkept.preceding
          obtain ⟨first, more, hne, -⟩ := hn.head
          rw [List.getLast?_eq_some_getLast (l := n) (by simp [hne])] at hpreceding
          rw [hbuffer1, List.getLast?_eq_some_getLast (l := n) (by simp [hne])]
          rwa [hpreceding] at hpart1
        have hpercent : ∃ percent, SymbolTable.standard.operatorOf? '%' = some percent := ⟨_, rfl⟩
        obtain ⟨percent, hknown⟩ := hpercent
        have hmove : (Lexicon.standard resolution canonical).move s1 '%' k = .ok .keep := by
          refine move_keep hsettled1 rfl (Or.inl (by decide)) rfl ?_
          rw [hknown, Option.all_some, Bool.or_eq_true]
          exact Or.inr (isUnitSuffix_percent hn hbuffer1 hlast hk)
        exact ⟨_, hkept.trans (.one hrest1 hmove), rfl⟩
      · obtain ⟨s2, hnamed, hrest2⟩ := keeps_letters (.standard resolution canonical) hsettled1
          hletters (Or.inr hpart1) hrest1
        exact ⟨s2, hkept.trans hnamed, hrest2⟩

end UnitCalc
