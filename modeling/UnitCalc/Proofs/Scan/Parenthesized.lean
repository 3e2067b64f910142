/-
A source in parentheses.

It is cut into the segments it has on its own, each a character further on,
between the two parentheses (`Segment.ofSource_parenthesized`). This holds of
every lexicon, whatever its table and its units are, so nothing may be used of
the words and operators there are.

# Two scans

They take the same moves (`Scan.Parenthesized.move`). Whether a word is gone on
with and whether an operand is due is answered alike at the start of a source
and behind an open parenthesis. Whether a word, a number or an exponent goes on
and whether a unit may stand there is answered alike at its end and before a
closing one; this is shown in `Proofs/Scan/Abreast`. The calls around the
position are the same, so arguments take the same characters, and unlike in a
call no move of the one differs from that of the other.

The run follows by induction on what is left of the text, and
`Proofs/Parsing/Parenthesized` goes on to the tree.
-/
import UnitCalc.Proofs.Scan.InCall

namespace UnitCalc

open Text

/-- Some segments behind an open parenthesis. -/
def inParens (segments : List Segment) : List Segment :=
  ⟨.leftParen, "(", 0⟩ :: segments.map (Segment.moved (· + 1))

theorem inParens_concat (segments : List Segment) (x : Segment) :
    inParens (segments ++ [x]) = inParens segments ++ [x.moved (· + 1)] := by
  simp [inParens]

namespace Scan

/-- Two scans at the same place of a text of some length, the second of which
reads it in parentheses. -/
structure Parenthesized (length : Nat) (a b : Scan) : Prop where
  rest : b.rest = a.rest ++ [')']
  position : b.position = a.position + 1
  ends : a.position + a.rest.length = length
  preceding : b.preceding.any isWordPart = a.preceding.any isWordPart
  buffer : b.buffer = a.buffer
  start : a.buffer ≠ [] → b.bufferStart = a.bufferStart + 1
  segments : b.segments = inParens a.segments
  frames : b.frames = a.frames

namespace Parenthesized

variable {lexicon : Lexicon} {length : Nat} {a b : Scan} {c : Char} {tail : List Char}

-- ============================================================= a single move

theorem argumentTakes (h : Parenthesized length a b) (symbols : SymbolTable) (c : Char) :
    b.argumentTakes symbols c = a.argumentTakes symbols c := by
  unfold Scan.argumentTakes argumentFrame?
  rw [h.frames, h.buffer]

/-- Both do the same about a character, or stop with the same fault. -/
theorem move (h : Parenthesized length a b) (lexicon : Lexicon) (c : Char) (tail : List Char) :
    lexicon.move b c (tail ++ [')']) = lexicon.move a c tail := by
  have hword : wordAt? b.preceding (c :: (tail ++ [')'])) lexicon.words
      = wordAt? a.preceding (c :: tail) lexicon.words :=
    wordAt?_snoc h.preceding lexicon.words (c :: tail)
  have hdue : operandDue b.segments.getLast? = operandDue a.segments.getLast? := by
    rw [h.segments]
    exact operandDue_behind [⟨.leftParen, "(", 0⟩] rfl _ a.segments
  unfold Lexicon.move
  simp only [h.argumentTakes, hword, isSign_snoc h.buffer hdue, isExponentSign_snoc h.buffer,
    isUnitSuffix_snoc h.buffer]

/-- Both end the same literal. -/
theorem flush (h : Parenthesized length a b) :
    b.flush.segments = inParens a.flush.segments :=
  flush_segments_behind [⟨.leftParen, "(", 0⟩] h.buffer h.start h.segments

/-- Both go on at the same place of the text. -/
theorem apply (h : Parenthesized length a b) (hrest : a.rest = c :: tail) {m : Move}
    (hmove : lexicon.move a c tail = .ok m) :
    Parenthesized length (a.apply lexicon.symbols c tail m)
      (b.apply lexicon.symbols c (tail ++ [')']) m) := by
  have hends := h.ends
  rw [hrest, List.length_cons] at hends
  -- A move passes one character, or all of a segment, which lies before the closing parenthesis.
  cases m with
  | keep =>
      refine ⟨rfl, congrArg (· + 1) h.position, ?_, rfl, congrArg (· ++ [c]) h.buffer, fun _ => ?_,
        h.segments, h.frames⟩
      · show a.position + 1 + tail.length = length
        omega
      · exact bufferStart_keep h.buffer h.start h.position lexicon.symbols c tail _
  | skip =>
      refine ⟨rfl, congrArg (· + 1) h.position, ?_, rfl, rfl, fun hne => absurd rfl hne,
        h.flush, h.frames⟩
      show a.position + 1 + tail.length = length
      omega
  | emit kind text =>
      obtain ⟨hne, hbegins⟩ := Lexicon.begins_of_emit hmove
      have hlong : text.length - 1 ≤ tail.length := by
        have hletters := hbegins.length_le
        rw [String.length_toList, List.length_cons] at hletters
        omega
      have hpositive : text.length ≠ 0 := by
        rwa [ne_eq, ← String.length_toList, List.length_eq_zero_iff, String.toList_eq_nil_iff]
      refine ⟨?_, ?_, ?_, rfl, rfl, fun hne => absurd rfl hne, ?_, ?_⟩
      · exact List.drop_append_of_le_length hlong
      · show b.position + text.length = a.position + text.length + 1
        rw [h.position]
        omega
      · show a.position + text.length + (tail.drop (text.length - 1)).length = length
        rw [List.length_drop]
        omega
      · show b.flush.segments ++ [⟨kind, text, b.position⟩]
          = inParens (a.flush.segments ++ [⟨kind, text, a.position⟩])
        rw [inParens_concat, h.flush, h.position]
        rfl
      · exact congrArg (framesAfter lexicon.symbols kind text) h.frames

-- ================================================================= whole runs

/-- A text that is scanned is scanned in parentheses as well. -/
theorem run {scanned : Scan} :
    ∀ {rest : List Char} {a b : Scan}, a.rest = rest → Parenthesized length a b →
      Scan.run lexicon a = .ok scanned →
      ∃ scanned', Scan.run lexicon b = .ok scanned'
        ∧ scanned'.flush.segments
          = inParens scanned.flush.segments ++ [⟨.rightParen, ")", length + 1⟩] := by
  intro rest
  induction hlength : rest.length using Nat.strongRecOn generalizing rest with
  | ind n ih =>
      intro a b hrest h hrun
      cases rest with
      | nil =>
          rw [run_nil hrest] at hrun
          obtain rfl := Except.ok.inj hrun
          have hclose : b.rest = [')'] := by rw [h.rest, hrest, List.nil_append]
          obtain ⟨scanned', hrun', hsegments⟩ := run_close lexicon hclose
          have hends := h.ends
          rw [hrest, List.length_nil, Nat.add_zero] at hends
          refine ⟨scanned', hrun', ?_⟩
          rw [hsegments, h.flush, h.position, hends]
      | cons c tail =>
          have hrest' : b.rest = c :: (tail ++ [')']) := by rw [h.rest, hrest, List.cons_append]
          -- The scan on its own is known to end, so its move does not fail.
          cases hmove : lexicon.move a c tail with
          | error fault =>
              rw [run_fault hrest hmove] at hrun
              cases hrun
          | ok m =>
              rw [run_move hrest hmove] at hrun
              rw [run_move hrest' ((h.move lexicon c tail).trans hmove)]
              have hshorter := a.rest_apply_lt lexicon.symbols c tail m
              rw [hlength] at hshorter
              exact ih _ hshorter rfl rfl (h.apply hrest hmove) hrun

end Parenthesized

/-- The scan of a source in parentheses, behind the first of them. -/
theorem parenthesized_start (lexicon : Lexicon) (text : List Char) :
    ∃ b, run lexicon { rest := '(' :: (text ++ [')']) } = run lexicon b
      ∧ Parenthesized text.length { rest := text } b :=
  ⟨_, run_move rfl (move_structural rfl),
    ⟨rfl, rfl, Nat.zero_add _, rfl, rfl, fun hne => absurd rfl hne, rfl, rfl⟩⟩

end Scan

/-- A source that is cut into segments is cut into the same in parentheses. -/
theorem Segment.ofSource_parenthesized {lexicon : Lexicon} {limits : Limits} {source : String}
    {segments : List Segment} (h : Segment.ofSource? lexicon limits source = .ok segments)
    (hlength : (("(" ++ source ++ ")").length : Int) ≤ limits.expressionLength) :
    Segment.ofSource? lexicon limits ("(" ++ source ++ ")")
      = .ok (⟨.leftParen, "(", 0⟩
        :: (segments.map (Segment.moved (· + 1)) ++ [⟨.rightParen, ")", source.length + 1⟩])) := by
  have hletters : ("(" ++ source ++ ")").toList = '(' :: (source.toList ++ [')']) := by simp
  obtain ⟨scanned, hrun, rfl⟩ := run_of_ofSource h
  obtain ⟨b, hstart, hparens⟩ := Scan.parenthesized_start lexicon source.toList
  obtain ⟨scanned', hrun', hsegments⟩ := hparens.run rfl hrun
  rw [ofSource_of_run hlength (by rw [hletters, hstart, hrun']), hsegments, String.length_toList]
  rfl

end UnitCalc
