/-
Segments and the blanks between them.

A scan comes from one place of a written expression to the next by emitting a
segment (`Scan.Emits`) or by passing a blank, and there are two kinds of places
that matter: those where an operand may begin (`Scan.Awaits`) and those behind
one (`Scan.Complete`).

# Blanks do not show

Behind an operand the literal may still be collected, and inside of a call the
blank is then collected with it, since the argument takes what leaves it a
number. Neither shows, because the next segment ends the literal and trims it.
So facts about blanks are facts about the segments after the literal is ended
(`s.flush.segments`), never about the segments as they are.

# Operators

Behind an operand and a blank nothing of an operator can be part of a literal:
no sign is due, no exponent goes on over a blank, and a unit stands right
behind its number. This is why a printed expression, which has blanks around
its operators, is cut where it was joined (`Proofs/Parsing/Printing`).
-/
import UnitCalc.Proofs.Scan.Literal

namespace UnitCalc

open Text

variable {s s' : Scan}

-- ======================================================== ended literals

/-- Where no literal is collected nothing is ended. -/
theorem Scan.flush_segments_of_nil (h : s.buffer = []) : s.flush.segments = s.segments := by
  unfold flush
  simp only [h]
  rfl

/-- A literal that is collected becomes a segment. -/
theorem Scan.flush_segments_of_trim {text : List Char} (h : trim s.buffer = text)
    (hne : text ≠ []) :
    ∃ start, s.flush.segments = s.segments ++ [⟨.literal, String.ofList text, start⟩] := by
  unfold flush
  simp only [h]
  rw [if_neg (by simp [hne])]
  exact ⟨_, rfl⟩

/-- A blank that is kept behind a literal does not show: the text is the same,
and so is its place. -/
theorem Scan.flush_segments_keep_blank (symbols : SymbolTable) {c : Char} (tail : List Char)
    (hc : isBlank c = true) (h : allBlank s.buffer = false) :
    (s.apply symbols c tail .keep).flush.segments = s.flush.segments := by
  have hnonempty : s.buffer.isEmpty = false := by
    cases hbuffer : s.buffer with
    | nil =>
        rw [hbuffer] at h
        cases h
    | cons => rfl
  unfold Scan.flush Scan.apply
  simp only [trim_snoc_blank hc, trimStart_append h, hnonempty,
    List.length_append, Bool.false_eq_true, ↓reduceIte, Nat.add_sub_add_right]

/-- A literal that is not blank becomes the last segment. -/
theorem Scan.flush_segments_getLast? (h : allBlank s.buffer = false) :
    ∃ x, s.flush.segments.getLast? = some x ∧ x.kind = .literal := by
  obtain ⟨start, hsegments⟩ := Scan.flush_segments_of_trim rfl (trim_ne_nil h)
  rw [hsegments, List.getLast?_concat]
  exact ⟨_, rfl, rfl⟩

-- ====================================================== emitted segments

/-- A scan that has ended its literal and emitted a segment. -/
structure Scan.Emits (lexicon : Lexicon) (s : Scan) (kind : SegmentKind) (text : String)
    (s' : Scan) : Prop where
  run : Scan.run lexicon s = Scan.run lexicon s'
  segments : ∃ position, s'.segments = s.flush.segments ++ [⟨kind, text, position⟩]
  buffer : s'.buffer = []
  frames : s'.frames = Scan.framesAfter lexicon.symbols kind text s.frames
  preceding : s'.preceding = text.toList.getLast?

namespace Scan.Emits

variable {lexicon : Lexicon} {kind : SegmentKind} {text : String}

/-- A move that emits leaves what is behind the text of the segment. -/
theorem of_move (lexicon : Lexicon) {c : Char} {tail letters k : List Char}
    (htext : text.toList = c :: letters) (hrest : s.rest = c :: tail) (htail : tail = letters ++ k)
    (hmove : lexicon.move s c tail = .ok (.emit kind text)) :
    ∃ s', Emits lexicon s kind text s' ∧ s'.rest = k := by
  refine ⟨_, ⟨Scan.run_move hrest hmove, ⟨_, rfl⟩, rfl, rfl, rfl⟩, ?_⟩
  have hlength : text.length - 1 = letters.length := by
    rw [← String.length_toList, htext, List.length_cons, Nat.add_sub_cancel]
  show tail.drop (text.length - 1) = k
  rw [hlength, htail, List.drop_left]

/-- Parentheses and commas. -/
theorem structural (lexicon : Lexicon) {c : Char} {k : List Char}
    (hkind : structural? c = some kind) (hrest : s.rest = c :: k) :
    ∃ s', Emits lexicon s kind (String.singleton c) s' ∧ s'.rest = k :=
  of_move lexicon (String.toList_singleton c) hrest rfl (move_structural hkind)

/-- Behind a segment that an operand follows. -/
theorem awaits (h : Emits lexicon s kind text s')
    (hkind : kind = .leftParen ∨ kind = .operator ∨ kind = .comma)
    (hs : ∀ frame ∈ s'.frames, frame.Settled)
    (htext : text.toList.getLast?.any isWordPart = false) : s'.Awaits := by
  obtain ⟨position, hsegments⟩ := h.segments
  refine ⟨h.buffer, ?_, hs, ?_⟩
  · rw [hsegments, List.getLast?_concat]
    rcases hkind with rfl | rfl | rfl <;> rfl
  · rw [h.preceding, htext]

end Scan.Emits

-- =============================================================== operands

/-- A scan behind an operand: it collects a literal, or the last segment is
one that an operand can end with. -/
def Scan.Complete (s : Scan) : Prop :=
  allBlank s.buffer = false
    ∨ s.buffer = [] ∧ Scan.operandDue s.segments.getLast? = false

/-- A closing parenthesis ends an operand. -/
theorem Scan.Emits.complete {lexicon : Lexicon} {text : String}
    (h : Emits lexicon s .rightParen text s') : s'.Complete := by
  obtain ⟨position, hsegments⟩ := h.segments
  refine Or.inr ⟨h.buffer, ?_⟩
  rw [hsegments, List.getLast?_concat]
  rfl

/-- A blank in front of an operand changes nothing. -/
theorem Scan.Awaits.space (units : UnitRegistry) (hs : s.Awaits) {k : List Char}
    (hrest : s.rest = ' ' :: k) :
    ∃ s', Scan.run (.of .standard units) s = Scan.run (.of .standard units) s' ∧ s'.rest = k
      ∧ s'.Awaits ∧ s'.segments = s.segments ∧ s'.frames = s.frames := by
  rcases move_space units k hs.settled with hmove | ⟨hnumber, -⟩
  · have hsegments : s.flush.segments = s.segments := Scan.flush_segments_of_nil hs.buffer
    refine ⟨_, Scan.run_move hrest hmove, rfl, ⟨rfl, ?_, hs.settled, rfl⟩, hsegments, rfl⟩
    show Scan.operandDue s.flush.segments.getLast? = true
    rw [hsegments]
    exact hs.due
  · -- A blank alone is no number, so nothing takes it here.
    rw [hs.buffer] at hnumber
    exact absurd hnumber (by decide)

/-- A blank behind an operand is skipped or collected. -/
theorem Scan.Complete.space (units : UnitRegistry) (h : s.Complete)
    (hs : ∀ frame ∈ s.frames, frame.Settled) {k : List Char} (hrest : s.rest = ' ' :: k) :
    ∃ s', Scan.run (.of .standard units) s = Scan.run (.of .standard units) s' ∧ s'.rest = k
      ∧ s'.Complete ∧ (∀ c ∈ s'.buffer.getLast?, c = ' ')
      ∧ s'.flush.segments = s.flush.segments ∧ s'.frames = s.frames := by
  -- Skipped, the blank ends the literal; kept, it is one more character of a number.
  rcases move_space units k hs with hmove | ⟨hnumber, hmove⟩
  · refine ⟨_, Scan.run_move hrest hmove, rfl, Or.inr ⟨rfl, ?_⟩, by simp [Scan.apply, Scan.flush],
      Scan.flush_segments_of_nil rfl, rfl⟩
    show Scan.operandDue s.flush.segments.getLast? = false
    rcases h with hblank | ⟨hbuffer, hdue⟩
    · obtain ⟨x, hlast, hx⟩ := Scan.flush_segments_getLast? hblank
      rw [hlast, Scan.operandDue, Option.all_some, hx]
      rfl
    · rw [Scan.flush_segments_of_nil hbuffer]
      exact hdue
  · have hblank : allBlank s.buffer = false := by
      rcases h with hblank | ⟨hbuffer, -⟩
      · exact hblank
      · rw [hbuffer] at hnumber
        exact absurd hnumber (by decide)
    refine ⟨_, Scan.run_move hrest hmove, rfl, Or.inl ?_, ?_,
      Scan.flush_segments_keep_blank _ k (by decide) hblank, rfl⟩
    · show allBlank (s.buffer ++ [' ']) = false
      rw [allBlank_append, hblank, Bool.false_and]
    · intro c hc
      rw [show (s.apply _ ' ' k .keep).buffer = s.buffer ++ [' '] from rfl,
        List.getLast?_concat] at hc
      exact (Option.some.inj hc).symm

/-- Behind an operand no sign is due. -/
theorem Scan.Complete.isSign (h : s.Complete) (operator : OperatorSymbol) (k : List Char) :
    s.isSign operator k = false := by
  unfold Scan.isSign
  rcases h with hblank | ⟨-, hdue⟩
  · rw [hblank, Bool.and_false, Bool.false_and, Bool.false_and]
  · rw [hdue, Bool.and_false, Bool.false_and]

/-- Behind a blank no exponent goes on. -/
theorem isExponentSign_blank (hlast : ∀ c ∈ s.buffer.getLast?, isBlank c = true) (c : Char)
    (k : List Char) : s.isExponentSign c k = false := by
  have hmark : (trimStart s.buffer).getLast?.any (fun mark => mark == 'e' || mark == 'E')
      = false := by
    cases hmantissa : (trimStart s.buffer).getLast? with
    | none => rfl
    | some d =>
        have hbuffer : s.buffer.getLast? = some d := by
          rw [← List.takeWhile_append_dropWhile (p := isBlank) (l := s.buffer),
            List.getLast?_append]
          change (trimStart s.buffer).getLast?.or _ = some d
          rw [hmantissa]
          rfl
        -- The mark would be the last character that was collected, which is blank.
        exact of_isBlank (p := fun d => (d == 'e' || d == 'E') = false) (hlast d hbuffer)
          (by decide +kernel)
  unfold Scan.isExponentSign
  dsimp only
  rw [hmark, Bool.and_false, Bool.false_and, Bool.false_and]

/-- Behind a blank nothing is a unit. -/
theorem isUnitSuffix_space {units : UnitRegistry} (hlast : ∀ c ∈ s.buffer.getLast?, c = ' ')
    (c : Char) (k : List Char) : s.isUnitSuffix units c k = false := by
  have hgap : s.buffer.getLast?.any (fun last => !isGap last) = false := by
    cases hbuffer : s.buffer.getLast? with
    | none => rfl
    | some d =>
        rw [hlast d hbuffer]
        rfl
  unfold Scan.isUnitSuffix
  rw [hgap, Bool.and_false, Bool.false_and, Bool.false_and]

/-- Behind an operand and a blank an operator is emitted. -/
theorem Scan.Complete.operator (units : UnitRegistry) (h : s.Complete)
    (hs : ∀ frame ∈ s.frames, frame.Settled) (hlast : ∀ c ∈ s.buffer.getLast?, c = ' ')
    {c : Char} {k : List Char}
    (hc : c ∈ ['+', '-', '*', '/', '%']) {operator : OperatorSymbol}
    (hoperator : SymbolTable.standard.operatorOf? c = some operator) (hrest : s.rest = c :: k) :
    ∃ s', Scan.Emits (.of .standard units) s .operator (String.singleton c) s' ∧ s'.rest = k :=
  Scan.Emits.of_move (.of .standard units) (String.toList_singleton c) hrest rfl
    (move_operator hs hc hoperator (h.isSign operator k)
      (isExponentSign_blank (fun d hd => hlast d hd ▸ rfl) c k) (isUnitSuffix_space hlast c k))

end UnitCalc
