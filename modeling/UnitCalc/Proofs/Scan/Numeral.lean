/-
A numeral with blanks around it, cut by the standard table.

Digits of every script, the point and the mark of a power are kept, as no word
and no operator of the table begins with them (`move_inert`), and blanks are
kept or skipped without leaving a trace. That leaves the signs. A scan takes
one for a part of a number only in front of a digit of ASCII (`SignsRead`),
though the numerals of `Numeral.WrittenAs` have digits of any script behind
their signs; in front of another digit it is an operator. So a number is cut
to one literal exactly if its signs are read (`Segment.ofSource_number_iff`).

# If its signs are not read

A sign that is not read is emitted, and an emitted segment stays
(`Scan.signsRead_of_literals`). Nothing has to be known of the text for this
direction, so it is an induction over the characters alone.

# If they are

The text is taken apart as the numeral is written: blanks, sign, mantissa,
power, blanks. Blanks in front may have been collected, so an operand is
awaited with blanks in hand (`keeps_numeral`) and not with nothing, which is
why the lemmas of `Proofs/Scan/Literal` about quantities of ASCII do not
apply. Where the literal stands is not followed along. It is the only segment,
so it covers all but the blanks (`Covered.of_single`).

`Proofs/Evaluation/Numbers` evaluates the literal.
-/
import UnitCalc.Proofs.Quantity.Splitting
import UnitCalc.Proofs.Scan.Payload

namespace UnitCalc

open Text

-- ==================================================================== signs

/-- Whether every sign in a text stands in front of a digit of ASCII, or of a
point and such a digit. -/
def SignsRead : List Char → Prop
  | [] => True
  | c :: tail => (c = '+' ∨ c = '-' → Scan.startsNumber tail = true) ∧ SignsRead tail

/-- Each character is looked at with what follows it. -/
instance SignsRead.decidable : (cs : List Char) → Decidable (SignsRead cs)
  | [] => isTrue trivial
  | _ :: tail =>
    have := SignsRead.decidable tail
    inferInstanceAs (Decidable (_ ∧ _))

theorem SignsRead.behind {front cs : List Char} (h : SignsRead (front ++ cs)) : SignsRead cs := by
  induction front with
  | nil => exact h
  | cons c front ih => exact ih h.2

/-- Whether neither sign is a unit. -/
def UnitRegistry.Signless (units : UnitRegistry) : Prop :=
  ∀ c, c = '+' ∨ c = '-' → units.isUnit (String.singleton c) = false

-- ==================================================================== moves

variable {units : UnitRegistry} {s : Scan} {c : Char} {tail : List Char}

/-- The characters that part a source, structure it, or begin a symbol of the
standard table. -/
def standardMarks : List Char :=
  [' ', '\t', '\n', '\r', '(', ')', ',', 'r', 'a', 'f', 'c', 'm', '+', '-', '*', '/', '%']

/-- The move at a character at which no word begins. -/
theorem move_wordless (units : UnitRegistry) (tail : List Char) (hplain : structural? c = none)
    (hword : c ∉ ['r', 'a', 'f', 'c', 'm']) {takes : Bool}
    (htakes : s.argumentTakes .standard c = .ok takes) :
    (Lexicon.of .standard units).move s c tail
      = .ok (if takes then .keep else s.moveAt units c tail none) := by
  obtain ⟨found, hfound, -⟩ := wordAt?_total (fun _ => standard_readable.word_ne_empty)
    s.preceding (c :: tail)
  cases found with
  | none => exact move_standard units hplain htakes hfound
  | some word => exact absurd (standard_word hfound).2.2.2 hword

/-- Where no operator stands, only gaps are skipped. -/
theorem move_unmarked (units : UnitRegistry) (tail : List Char) (hplain : structural? c = none)
    (hword : c ∉ ['r', 'a', 'f', 'c', 'm']) (hoperator : c ∉ ['+', '-', '*', '/', '%'])
    {takes : Bool} (htakes : s.argumentTakes .standard c = .ok takes) :
    (Lexicon.of .standard units).move s c tail
      = .ok (if takes then .keep else if isGap c then .skip else .keep) := by
  have hnone : SymbolTable.standard.operatorOf? c = none := by
    cases hsome : SymbolTable.standard.operatorOf? c with
    | none => rfl
    | some operator => exact absurd (mem_of_operatorOf? hsome) hoperator
  rw [move_wordless units tail hplain hword htakes, Scan.moveAt_none hnone]

/-- Any other character is kept. -/
theorem move_inert (hs : ∀ frame ∈ s.frames, frame.Settled) (hc : c ∉ standardMarks)
    (units : UnitRegistry) (tail : List Char) :
    (Lexicon.of .standard units).move s c tail = .ok .keep := by
  obtain ⟨takes, htakes, -⟩ := s.argumentTakes_standard hs c
  have hplain : structural? c = none := by
    cases hkind : structural? c with
    | none => rfl
    | some kind =>
        rcases structural?_eq_some.1 hkind with ⟨rfl, -⟩ | ⟨rfl, -⟩ | ⟨rfl, -⟩ <;>
          exact absurd (by decide) hc
  have hgap : isGap c = false := by
    rw [Bool.eq_false_iff]
    intro hgap
    simp only [isGap, Bool.or_eq_true, beq_iff_eq] at hgap
    rcases hgap with ((rfl | rfl) | rfl) | rfl <;> exact absurd (by decide) hc
  have hword : c ∉ ['r', 'a', 'f', 'c', 'm'] := fun hmem =>
    hc (List.mem_append_left _ (List.mem_append_right [' ', '\t', '\n', '\r', '(', ')', ','] hmem))
  have hoperator : c ∉ ['+', '-', '*', '/', '%'] := fun hmem =>
    hc (List.mem_append_right [' ', '\t', '\n', '\r', '(', ')', ',', 'r', 'a', 'f', 'c', 'm'] hmem)
  rw [move_unmarked units tail hplain hword hoperator htakes, hgap]
  cases takes <;> rfl

/-- Outside of calls a blank is skipped or kept. -/
theorem move_blank (hframes : s.frames = []) (hc : isBlank c = true) (units : UnitRegistry)
    (tail : List Char) :
    (Lexicon.of .standard units).move s c tail = .ok (if isGap c then .skip else .keep) := by
  have hall : c ∉ ['r', 'a', 'f', 'c', 'm'] ∧ c ∉ ['+', '-', '*', '/', '%'] :=
    of_isBlank (p := fun c => c ∉ ['r', 'a', 'f', 'c', 'm'] ∧ c ∉ ['+', '-', '*', '/', '%']) hc
      (by decide +kernel)
  exact move_unmarked units tail (structural?_of_isBlank hc) hall.1 hall.2
    (Scan.argumentTakes_outside (Scan.argumentFrame?_of_nil hframes) .standard c)

/-- A sign is kept only in front of a number. -/
theorem startsNumber_of_move (hunits : units.Signless) (hframes : s.frames = [])
    (hc : c = '+' ∨ c = '-') {move : Move}
    (hmove : (Lexicon.of .standard units).move s c tail = .ok move)
    (hpassed : ∀ kind text, move ≠ .emit kind text) : Scan.startsNumber tail = true := by
  have htakes := Scan.argumentTakes_outside (Scan.argumentFrame?_of_nil hframes) .standard c
  have hsign : structural? c = none ∧ c ∉ ['r', 'a', 'f', 'c', 'm']
      ∧ ∃ operator, SymbolTable.standard.operatorOf? c = some operator := by
    rcases hc with rfl | rfl
    · exact ⟨rfl, by decide, _, rfl⟩
    · exact ⟨rfl, by decide, _, rfl⟩
  obtain ⟨hplain, hword, operator, hoperator⟩ := hsign
  rw [move_wordless units tail hplain hword htakes, Except.ok.injEq] at hmove
  have hunit : s.isUnitSuffix units c tail = false := by
    unfold Scan.isUnitSuffix
    rw [hunits c hc, Bool.false_and, Bool.false_and, Bool.false_and]
  -- An operator that is no sign of anything is emitted, unless it is a unit, and no sign is one.
  cases hkept : s.isSign operator tail || s.isExponentSign c tail with
  | false =>
      rw [Bool.or_eq_false_iff] at hkept
      rw [Scan.moveAt_operator units hoperator hkept.1 hkept.2, hunit] at hmove
      exact absurd hmove.symm (hpassed _ _)
  | true =>
      rcases Bool.or_eq_true_iff.1 hkept with hsign | hexponent
      · unfold Scan.isSign at hsign
        rw [Bool.and_eq_true] at hsign
        exact hsign.2
      · unfold Scan.isExponentSign at hexponent
        rw [Bool.and_eq_true] at hexponent
        cases tail with
        | nil => cases hexponent.2
        | cons d more =>
            have hdigit : isAsciiDigit d = true := hexponent.2
            have hpoint : d ≠ '.' := by
              rintro rfl
              cases hdigit
            unfold Scan.startsNumber
            split
            · next heq => exact absurd (List.cons.inj heq).1 hpoint
            · next heq =>
                obtain ⟨rfl, -⟩ := List.cons.inj heq
                exact hdigit
            · next heq => cases heq

-- =================================================== what cannot be one literal

/-- If a text is cut to literals only, its signs are read. -/
theorem Scan.signsRead_of_literals (hunits : units.Signless) {scanned : Scan} :
    ∀ {rest : List Char} {s : Scan}, s.rest = rest → s.frames = [] →
      run (.of .standard units) s = .ok scanned →
      (∀ x ∈ scanned.flush.segments, x.kind = .literal) → SignsRead rest := by
  intro rest
  induction rest with
  | nil => exact fun _ _ _ _ => trivial
  | cons c tail ih =>
      intro s hrest hframes hrun hliterals
      cases hmove : (Lexicon.of .standard units).move s c tail with
      | error fault =>
          rw [run_fault hrest hmove] at hrun
          cases hrun
      | ok move =>
          rw [run_move hrest hmove] at hrun
          cases move with
          | keep =>
              exact ⟨fun hc => startsNumber_of_move hunits hframes hc hmove nofun,
                ih (s := s.apply _ c tail .keep) rfl hframes hrun hliterals⟩
          | skip =>
              exact ⟨fun hc => startsNumber_of_move hunits hframes hc hmove nofun,
                ih (s := s.apply _ c tail .skip) rfl hframes hrun hliterals⟩
          | emit kind text =>
              have hemitted := (segments_prefix_of_run hrun).subset
                (List.mem_append_right s.flush.segments List.mem_cons_self)
              exact absurd (hliterals _ hemitted) (kind_of_move hmove)

-- ===================================================================== blanks

/-- Blanks in front of everything leave no trace but blanks. -/
theorem Scan.run_leading (units : UnitRegistry) {k : List Char} :
    ∀ {lead : List Char} {s : Scan}, allBlank lead = true → s.rest = lead ++ k →
      s.frames = [] → s.segments = [] → allBlank s.buffer = true →
      ∃ s', run (.of .standard units) s = run (.of .standard units) s' ∧ s'.rest = k
        ∧ s'.frames = [] ∧ s'.segments = [] ∧ allBlank s'.buffer = true := by
  intro lead
  induction lead with
  | nil =>
      intro s _ hrest hframes hsegments hbuffer
      exact ⟨s, rfl, hrest, hframes, hsegments, hbuffer⟩
  | cons c lead ih =>
      intro s hlead hrest hframes hsegments hbuffer
      rw [allBlank_cons, Bool.and_eq_true] at hlead
      rw [run_move hrest (move_blank hframes hlead.1 units _)]
      cases isGap c with
      | true =>
          refine ih hlead.2 rfl hframes ?_ rfl
          exact (flush_segments_of_allBlank hbuffer).trans hsegments
      | false =>
          refine ih hlead.2 rfl hframes hsegments ?_
          show allBlank (s.buffer ++ [c]) = true
          rw [allBlank_snoc, hbuffer, hlead.1, Bool.and_self]

/-- Blanks behind everything add nothing. -/
theorem Scan.run_trailing (units : UnitRegistry) :
    ∀ {trail : List Char} {s : Scan}, allBlank trail = true → s.rest = trail → s.frames = [] →
      ∃ scanned, run (.of .standard units) s = .ok scanned
        ∧ scanned.flush.segments = s.flush.segments := by
  intro trail
  induction trail with
  | nil => exact fun {s} _ hrest _ => ⟨s, run_nil hrest, rfl⟩
  | cons c trail ih =>
      intro s htrail hrest hframes
      rw [allBlank_cons, Bool.and_eq_true] at htrail
      rw [run_move hrest (move_blank hframes htrail.1 units _)]
      -- A gap ends the literal; a blank that is no gap is kept with it and trimmed.
      have hadds : (s.apply .standard c trail (if isGap c then .skip else .keep)).flush.segments
          = s.flush.segments := by
        cases isGap c with
        | true => exact flush_segments_of_nil rfl
        | false =>
            cases hbuffer : allBlank s.buffer with
            | true =>
                rw [flush_segments_of_allBlank hbuffer]
                refine flush_segments_of_allBlank ?_
                show allBlank (s.buffer ++ [c]) = true
                rw [allBlank_snoc, hbuffer, htrail.1, Bool.and_self]
            | false => exact flush_segments_keep_blank .standard trail htrail.1 hbuffer
      have hframes' :
          (s.apply .standard c trail (if isGap c then .skip else .keep)).frames = [] := by
        cases isGap c <;> exact hframes
      have hrest' :
          (s.apply .standard c trail (if isGap c then .skip else .keep)).rest = trail := by
        cases isGap c <;> rfl
      obtain ⟨scanned, hrun, hsegments⟩ := ih htrail.2 hrest' hframes'
      exact ⟨scanned, hrun, hsegments.trans hadds⟩

-- =================================================================== numerals

theorem not_mem_standardMarks (h : isDigit c = true) : c ∉ standardMarks := by
  intro hc
  rw [forall_mem_of_all (p := fun d => isDigit d = false) (by decide) c hc] at h
  cases h

/-- Digits, points and the marks of powers are kept. -/
theorem keeps_inert (units : UnitRegistry) (hs : ∀ frame ∈ s.frames, frame.Settled)
    {v k : List Char} (hv : ∀ c ∈ v, c ∉ standardMarks) (hrest : s.rest = v ++ k) :
    ∃ s', Scan.Keeps (.of .standard units) s v s' ∧ s'.rest = k := by
  induction v generalizing s with
  | nil => exact ⟨s, .refl s, hrest⟩
  | cons c v ih =>
      have hone := Scan.Keeps.one hrest
        (move_inert hs (hv c List.mem_cons_self) units (v ++ k))
      obtain ⟨s', hkeeps, hbehind⟩ := ih (s := s.apply _ c (v ++ k) .keep) hs
        (fun d hd => hv d (List.mem_cons_of_mem c hd)) rfl
      exact ⟨s', hone.trans hkeeps, hbehind⟩

namespace Numeral

theorem MantissaWritten.inert {w f m : List Char} (h : MantissaWritten w f m) :
    ∀ c ∈ m, c ∉ standardMarks := by
  have hpoint : '.' ∉ standardMarks := by decide
  cases h with
  | whole hw => exact fun c hc => not_mem_standardMarks (hw.2 c hc)
  | pointed hw hf =>
      intro c hc
      rw [List.mem_append, List.mem_cons] at hc
      rcases hc with hc | rfl | hc
      · exact not_mem_standardMarks (hw.2 c hc)
      · exact hpoint
      · exact not_mem_standardMarks (hf c hc)
  | point hf =>
      intro c hc
      rcases List.mem_cons.1 hc with rfl | hc
      · exact hpoint
      · exact not_mem_standardMarks (hf.2 c hc)

end Numeral

/-- Behind a numeral and the mark of a power a sign in front of a digit of ASCII
is one of the power. -/
theorem isExponentSign_of_writtenAs {numeral : Numeral} {lead n : List Char} {mark : Char}
    (hn : numeral.WrittenAs n) (hlead : allBlank lead = true) (hmark : mark = 'e' ∨ mark = 'E')
    (hc : c = '+' ∨ c = '-') (hbuffer : s.buffer = lead ++ (n ++ [mark]))
    (htail : tail.head?.any isAsciiDigit = true) : s.isExponentSign c tail = true := by
  have htrim : trimStart s.buffer = n ++ [mark] := by
    rw [hbuffer, Quantity.trimStart_numeral hn hlead]
  have hsign : (c == '+' || c == '-') = true := by
    rcases hc with rfl | rfl <;> rfl
  have hmarks : (mark == 'e' || mark == 'E') = true := by
    rcases hmark with rfl | rfl <;> rfl
  have hlength : decide (2 ≤ (n ++ [mark]).length) = true := by
    have hpositive := List.length_pos_iff.2 hn.ne_nil
    rw [List.length_append, List.length_singleton, decide_eq_true_eq]
    omega
  unfold Scan.isExponentSign
  simp only [htrim, hsign, hlength, List.getLast?_concat, Option.any_some, hmarks,
    List.dropLast_concat, Quantity.isNumberText_of_writtenAs hn, htail, Bool.and_self]

/-- What is read in front of digits begins with a digit of ASCII. -/
theorem head_of_startsNumber {d : List Char} (hd : Numeral.IsRun d) (k : List Char)
    (h : Scan.startsNumber (d ++ k) = true) : (d ++ k).head?.any isAsciiDigit = true := by
  obtain ⟨first, more, rfl⟩ := List.exists_cons_of_ne_nil hd.1
  have hfirst : first ≠ '.' := by
    rintro rfl
    exact absurd (hd.2 '.' List.mem_cons_self) (by decide)
  unfold Scan.startsNumber at h
  split at h
  · next heq => exact absurd (List.cons.inj heq).1 hfirst
  · next heq =>
      obtain ⟨rfl, -⟩ := List.cons.inj heq
      exact h
  · next heq => cases heq

/-- A numeral whose signs are read is kept where an operand may begin, also
behind blanks. -/
theorem keeps_numeral (units : UnitRegistry) (hs : ∀ frame ∈ s.frames, frame.Settled)
    (hbuffer : allBlank s.buffer = true) (hdue : Scan.operandDue s.segments.getLast? = true)
    {numeral : Numeral} {n k : List Char} (hn : numeral.WrittenAs n) (hsigns : SignsRead (n ++ k))
    (hrest : s.rest = n ++ k) :
    ∃ s', Scan.Keeps (.of .standard units) s n s' ∧ s'.rest = k := by
  obtain ⟨hg, hm, hx⟩ := hn
  rename_i g w f m x exponent
  rw [List.append_assoc, List.append_assoc] at hrest hsigns
  have hleading : ∀ c ∈ g, ∀ operator : OperatorSymbol, operator.unary = true →
      (s.isSign operator (m ++ (x ++ k)) || s.isExponentSign c (m ++ (x ++ k))) = true := by
    intro c hc operator hunary
    have hstarts : Scan.startsNumber (m ++ (x ++ k)) = true := by
      cases hg with
      | none => cases hc
      | plus => exact hsigns.1 (Or.inl rfl)
      | minus => exact hsigns.1 (Or.inr rfl)
    unfold Scan.isSign
    rw [hunary, hbuffer, hdue, hstarts]
    rfl
  obtain ⟨s1, hsigned, hrest1⟩ := keeps_sign units hs hg hleading hrest
  have hsettled1 : ∀ frame ∈ s1.frames, frame.Settled := by rwa [hsigned.frames]
  obtain ⟨s2, hkept, hrest2⟩ := keeps_inert units hsettled1 hm.inert hrest1
  have hmantissa : Scan.Keeps (.of .standard units) s (g ++ m) s2 := hsigned.trans hkept
  rw [← List.append_assoc]
  -- The mark of a power is kept like a digit; its sign needs the numeral before the mark.
  cases hx with
  | none =>
      rw [List.append_nil]
      exact ⟨s2, hmantissa, hrest2⟩
  | @power mark g' d hmark hg' hd =>
      have hinert : ∀ c ∈ [mark], c ∉ standardMarks := by
        intro c hc
        rw [List.mem_singleton.1 hc]
        rcases hmark with rfl | rfl <;> decide
      have hsettled2 : ∀ frame ∈ s2.frames, frame.Settled := by rwa [hmantissa.frames]
      rw [List.cons_append, List.append_assoc, ← List.singleton_append] at hrest2
      obtain ⟨s3, hmarked, hrest3⟩ := keeps_inert units hsettled2 hinert hrest2
      have hsettled3 : ∀ frame ∈ s3.frames, frame.Settled := by rwa [hmarked.frames]
      have hbuffer3 : s3.buffer = s.buffer ++ ((g ++ (m ++ [])) ++ [mark]) := by
        rw [hmarked.buffer, hmantissa.buffer, List.append_nil, List.append_assoc]
      have hpower : SignsRead (g' ++ (d ++ k)) := by
        have hbehind : SignsRead ((mark :: (g' ++ d)) ++ k) := hsigns.behind.behind
        rw [List.cons_append, List.append_assoc] at hbehind
        exact hbehind.2
      have hsecond : ∀ c ∈ g', ∀ operator : OperatorSymbol, operator.unary = true →
          (s3.isSign operator (d ++ k) || s3.isExponentSign c (d ++ k)) = true := by
        intro c hc operator _
        have hstarts : (c = '+' ∨ c = '-') ∧ Scan.startsNumber (d ++ k) = true := by
          cases hg' with
          | none => cases hc
          | plus => exact ⟨Or.inl (List.mem_singleton.1 hc), hpower.1 (Or.inl rfl)⟩
          | minus => exact ⟨Or.inr (List.mem_singleton.1 hc), hpower.1 (Or.inr rfl)⟩
        rw [isExponentSign_of_writtenAs (.intro hg hm .none) hbuffer hmark hstarts.1 hbuffer3
          (head_of_startsNumber hd k hstarts.2), Bool.or_true]
      obtain ⟨s4, hsigned4, hrest4⟩ := keeps_sign units hsettled3 hg' hsecond hrest3
      have hsettled4 : ∀ frame ∈ s4.frames, frame.Settled := by rwa [hsigned4.frames]
      obtain ⟨s5, hdigits, hrest5⟩ := keeps_inert units hsettled4
        (fun c hc => not_mem_standardMarks (hd.2 c hc)) hrest4
      exact ⟨s5, hmantissa.trans (hmarked.trans (hsigned4.trans hdigits)), hrest5⟩

-- ==================================================================== sources

/-- A text with one segment is that segment between blanks. -/
theorem Covered.of_single {cs : List Char} {x : Segment} (h : Covered cs [x]) :
    ∃ lead trail, cs = lead ++ (x.text.toList ++ trail) ∧ allBlank lead = true
      ∧ allBlank trail = true ∧ x.position = lead.length := by
  have hnothing : ∀ {cs segments}, Covered cs segments → segments = [] → allBlank cs = true := by
    intro cs segments h
    induction h with
    | nothing => exact fun _ => rfl
    | blank _ hblank ih => exact fun hnil => by rw [allBlank_snoc, ih hnil, hblank, Bool.and_self]
    | segment _ _ _ _ => exact fun hnil => absurd hnil (by simp)
  generalize hsegments : [x] = segments at h
  induction h with
  | nothing => cases hsegments
  | @blank cs segments c _ hblank ih =>
      obtain ⟨lead, trail, rfl, hlead, htrail, hposition⟩ := ih hsegments
      refine ⟨lead, trail ++ [c], by simp, hlead, ?_, hposition⟩
      rw [allBlank_snoc, htrail, hblank, Bool.and_self]
  | @segment cs segments y hbefore _ hposition _ =>
      rw [← List.nil_append [x]] at hsegments
      obtain ⟨hnil, hx⟩ := List.append_inj' hsegments rfl
      obtain rfl := List.singleton_inj.1 hx
      exact ⟨cs, [], by simp, hnothing hbefore hnil.symm, rfl, hposition⟩

/-- Between blanks a numeral stands where the blanks end. -/
theorem Covered.numeral {numeral : Numeral} {cs n : List Char} {position : Nat}
    (hn : numeral.WrittenAs n) (h : Covered cs [⟨.literal, String.ofList n, position⟩]) :
    position = cs.length - (trimStart cs).length := by
  obtain ⟨lead, trail, rfl, hlead, -, rfl⟩ := h.of_single
  rw [String.toList_ofList, Quantity.trimStart_numeral hn hlead, List.length_append,
    Nat.add_sub_cancel]

namespace Segment

/-- A text that is a number is cut to one literal, without the blanks around it,
exactly if its signs are read. -/
theorem ofSource_number_iff {units : UnitRegistry} (hunits : units.Signless) {limits : Limits}
    {text : String} (hnumber : Quantity.isNumberText text.toList = true)
    (hlength : (text.length : Int) ≤ limits.expressionLength) :
    Segment.ofSource? (.of .standard units) limits text = .ok [payload 0 text]
      ↔ SignsRead text.toList := by
  constructor
  · intro h
    obtain ⟨scanned, hrun, -⟩ := Scan.run_total standard_readable units text.toList
      { rest := text.toList } rfl (by simp)
    rw [ofSource_of_run hlength hrun] at h
    refine Scan.signsRead_of_literals hunits rfl rfl hrun ?_
    rw [Except.ok.inj h]
    simp [payload]
  · intro h
    obtain ⟨numeral, hn⟩ := Quantity.isNumberText_iff_isText.1 hnumber
    obtain ⟨lead, trail, hparts, hlead, htrail, -⟩ := trim_parts text.toList
    rw [List.append_assoc] at hparts
    obtain ⟨s1, hrun1, hrest1, hframes1, hsegments1, hbuffer1⟩ := Scan.run_leading units
      (s := { rest := text.toList }) (List.all_eq_true.2 hlead) hparts rfl rfl rfl
    obtain ⟨s2, hkept, hrest2⟩ := keeps_numeral units (by simp [hframes1]) hbuffer1
      (by rw [hsegments1]; rfl) hn (SignsRead.behind (hparts ▸ h)) hrest1
    obtain ⟨scanned, hrun3, hsegments3⟩ := Scan.run_trailing units (List.all_eq_true.2 htrail)
      hrest2 (hkept.frames.trans hframes1)
    -- What was collected is the numeral with blanks before it.
    have htext : trim s2.buffer = trim text.toList := by
      have hbetween : trim (s1.buffer ++ (trim text.toList ++ [])) = trim (trim text.toList) :=
        trim_between hbuffer1 rfl _
      rwa [List.append_nil, trim_trim, ← hkept.buffer] at hbetween
    obtain ⟨position, hcut⟩ := Scan.flush_segments_of_trim htext hn.ne_nil
    rw [hkept.segments, hsegments1, List.nil_append] at hcut
    have hsource : Segment.ofSource? (.of .standard units) limits text
        = .ok [⟨.literal, trimmed text, position⟩] := by
      rw [ofSource_of_run hlength (hrun1.trans (hkept.run.trans hrun3)), hsegments3, hcut]
      rfl
    have hposition := (covered_of_ofSource hsource).numeral hn
    rw [hsource, payload, Nat.zero_add, hposition]

end Segment

end UnitCalc
