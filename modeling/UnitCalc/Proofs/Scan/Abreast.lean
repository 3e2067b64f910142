/-
A text on its own and the same text as the argument of a call.

Two scans run abreast (`Scan.Abreast`): the one inside of the call has a
parenthesis more before it and everything a few characters further on. Apart
from what the argument takes, they decide in the same way about every character
(`Scan.Alike.moveAt`).

# The closing parenthesis

The rest of the scan inside ends in a parenthesis that the other does not
have. All tests of a move that look ahead are gone through one by one, and
none of them can tell (the lemmas that end in `_snoc`): a closing parenthesis
neither ends a word nor goes on with a number, and where a unit may stand
before the end it may stand before the parenthesis.

# The opening parenthesis

What looks back is whether an operand is due, and it is due behind a
parenthesis as at the start of a source (`operandDue_behind`). The same lemmas
serve a text in parentheses without a function (`Proofs/Scan/Parenthesized`).
Where arguments do make a difference is the matter of `Proofs/Scan/Advancing`.
-/
import UnitCalc.Proofs.Scan.Growing
import UnitCalc.Proofs.Scan.Total
import UnitCalc.Proofs.Segment.Moved

namespace UnitCalc

open Text

-- ============================================================ the segments

/-- Some segments behind the name and the parenthesis that open a call. -/
def inCall (name : String) (segments : List Segment) : List Segment :=
  ⟨.function, name, 0⟩ :: ⟨.leftParen, "(", name.length⟩
    :: segments.map (Segment.moved (· + (name.length + 1)))

theorem inCall_append (name : String) (l r : List Segment) :
    inCall name (l ++ r) = inCall name l ++ r.map (Segment.moved (· + (name.length + 1))) := by
  simp [inCall]

/-- Behind a parenthesis as at the start of a source an operand is due, and
further on the same is due. -/
theorem operandDue_behind (front : List Segment) (hfront : Scan.operandDue front.getLast? = true)
    (place : Nat → Nat) (segments : List Segment) :
    Scan.operandDue (front ++ segments.map (Segment.moved place)).getLast?
      = Scan.operandDue segments.getLast? := by
  rcases List.eq_nil_or_concat segments with rfl | ⟨before, x, rfl⟩
  · rw [List.map_nil, List.append_nil, hfront]
    rfl
  · rw [List.concat_eq_append, List.map_append, List.map_singleton, ← List.append_assoc,
      List.getLast?_concat, List.getLast?_concat]
    rfl

theorem operandDue_inCall (name : String) (segments : List Segment) :
    Scan.operandDue (inCall name segments).getLast? = Scan.operandDue segments.getLast? :=
  operandDue_behind [⟨.function, name, 0⟩, ⟨.leftParen, "(", name.length⟩] rfl _ segments

-- =============================================================== the moves

variable {units : UnitRegistry} {s a b : Scan} {c : Char} {tail : List Char} {name : String}
  {source : List Char}

/-- The operators of the standard table. -/
theorem mem_of_operatorOf? {operator : OperatorSymbol}
    (h : SymbolTable.standard.operatorOf? c = some operator) : c ∈ ['+', '-', '*', '/', '%'] := by
  unfold SymbolTable.operatorOf? at h
  have hsymbol : operator.symbol = String.singleton c := Registry.key_of_get? h
  rw [← hsymbol] at h
  obtain ⟨d, hd, hmem, -⟩ := standard_operator h
  rw [hsymbol, ← String.toList_inj, String.toList_singleton, String.toList_singleton] at hd
  rwa [List.singleton_inj.1 hd]

/-- A word of the standard table begins with one of five letters. -/
theorem standard_word {preceding : Option Char} {word : String}
    (h : wordAt? preceding (c :: tail) SymbolTable.standard.words = .ok (some word)) :
    word ∈ SymbolTable.standard.words ∧ word ≠ "" ∧ word.toList <+: c :: tail
      ∧ c ∈ ['r', 'a', 'f', 'c', 'm'] := by
  obtain ⟨hne, more, hmore⟩ := begins_of_wordStands (wordStands_of_wordAt? h)
  obtain ⟨found, hfound, hmem⟩ := wordAt?_total (fun _ => standard_readable.word_ne_empty)
    preceding (c :: tail)
  rw [h] at hfound
  have hword : word ∈ SymbolTable.standard.words := hmem word (Except.ok.inj hfound).symm
  refine ⟨hword, hne, ⟨more, hmore⟩, ?_⟩
  rw [standard_words] at hword
  simp only [List.mem_cons, List.not_mem_nil, or_false] at hword
  rcases hword with rfl | rfl | rfl | rfl | rfl | rfl | rfl <;>
    rw [← (List.cons.inj hmore).1] <;> decide

/-- What goes on with a number begins neither a word nor an operator. -/
theorem apart_of_number {cs : List Char} (h : Quantity.isNumberText (cs ++ [c]) = true) :
    c ∉ ['r', 'a', 'f', 'c', 'm'] ∧ c ∉ ['+', '-', '*', '/', '%'] := by
  have hall : ∀ d ∈ ['r', 'a', 'f', 'c', 'm'] ++ ['+', '-', '*', '/', '%'],
      isBlank d = false ∧ isDigit d = false ∧ d ≠ '.' := forall_mem_of_all (by decide)
  have hapart : c ∉ ['r', 'a', 'f', 'c', 'm'] ++ ['+', '-', '*', '/', '%'] := by
    intro hc
    obtain ⟨hblank, hdigit, hpoint⟩ := hall c hc
    rcases isNumberText_snoc h with hc | hc | hc
    · rw [hblank] at hc
      cases hc
    · rw [hdigit] at hc
      cases hc
    · exact hpoint hc
  rwa [List.mem_append, not_or] at hapart

/-- The move at a character that no argument takes, given the word that stands
there. -/
def Scan.moveAt (units : UnitRegistry) (s : Scan) (c : Char) (tail : List Char) :
    Option String → Move
  | some word => .emit .function word
  | none =>
    match SymbolTable.standard.operatorOf? c with
    | some operator =>
      if s.isSign operator tail || s.isExponentSign c tail || s.isUnitSuffix units c tail then .keep
      else .emit .operator (String.singleton c)
    | none => if isGap c then .skip else .keep

/-- By the standard table an argument is asked first. -/
theorem move_standard (units : UnitRegistry) {takes : Bool} {found : Option String}
    (hplain : structural? c = none)
    (htakes : s.argumentTakes .standard c = .ok takes)
    (hfound : wordAt? s.preceding (c :: tail) SymbolTable.standard.words = .ok found) :
    (Lexicon.of .standard units).move s c tail
      = .ok (if takes then .keep else s.moveAt units c tail found) := by
  unfold Lexicon.move Lexicon.of
  simp only [hplain, htakes, hfound, bind, Except.bind, pure, Except.pure]
  -- A word of the standard table is a function, so nothing else can become of one.
  cases takes with
  | true => rfl
  | false =>
      cases found with
      | none =>
          unfold Scan.moveAt
          cases SymbolTable.standard.operatorOf? c with
          | none => rfl
          | some operator =>
              simp only [Bool.false_eq_true, ↓reduceIte]
              split <;> rfl
      | some word =>
          have hnames : ∀ w ∈ SymbolTable.standard.words,
              SymbolTable.standard.functions.contains w = true := by
            rw [standard_words]
            decide
          simp [hnames word (standard_word hfound).1, Scan.moveAt]

/-- An argument that has just begun takes what makes it a number. -/
theorem Scan.argumentTakes_inside {function : FunctionSymbol} (hf : function ∈ Numeric.functions)
    (hframes : s.frames = [{ function, depth := 1 }]) (c : Char) :
    s.argumentTakes .standard c = .ok (Quantity.isNumberText (s.buffer ++ [c])) := by
  have hparameters : ∀ f ∈ Numeric.functions, f.parameters.isEmpty = false := by
    intro f hf
    simp only [Numeric.functions, List.mem_cons, List.not_mem_nil, or_false] at hf
    rcases hf with rfl | rfl | rfl | rfl | rfl | rfl | rfl <;> rfl
  have hframe : s.argumentFrame? = some { function, depth := 1 } := by
    unfold argumentFrame?
    rw [hframes]
    rfl
  unfold argumentTakes
  rw [hframe]
  simp only [List.drop_zero]
  rw [acceptedBy_standard (standard_function hf).2.2, hparameters function hf, Bool.not_false,
    Bool.true_and, String.toList_ofList]

/-- Outside of arguments nothing is taken. -/
theorem Scan.argumentTakes_outside (h : s.argumentFrame? = none) (symbols : SymbolTable)
    (c : Char) : s.argumentTakes symbols c = .ok false := by
  unfold argumentTakes
  rw [h]

-- ===================================================== the closing parenthesis

/-- A word does not end at the closing parenthesis, nor behind it. -/
theorem wordStands_snoc {preceding preceding' : Option Char}
    (hpreceding : preceding'.any isWordPart = preceding.any isWordPart) (word : String)
    (cs : List Char) :
    wordStands preceding' (cs ++ [')']) word = wordStands preceding cs word := by
  have hsame : (word.toList.isPrefixOf (cs ++ [')'])
        && endsWord ((cs ++ [')']).drop word.toList.length).head?)
      = (word.toList.isPrefixOf cs && endsWord (cs.drop word.toList.length).head?) := by
    by_cases hbegins : word.toList <+: cs
    · have hlonger : word.toList <+: cs ++ [')'] := hbegins.trans (List.prefix_append _ _)
      rw [List.isPrefixOf_iff_prefix.2 hbegins, List.isPrefixOf_iff_prefix.2 hlonger,
        List.drop_append_of_le_length hbegins.length_le]
      cases cs.drop word.toList.length with
      | nil => rfl
      | cons d ds => rfl
    · have hnot : word.toList.isPrefixOf cs = false := by
        rwa [Bool.eq_false_iff, Ne, List.isPrefixOf_iff_prefix]
      rw [hnot, Bool.false_and]
      cases hbegins' : word.toList.isPrefixOf (cs ++ [')']) with
      | false => rfl
      | true =>
          -- All of the text is the word, so nothing is left to end it.
          rw [List.isPrefixOf_iff_prefix, List.prefix_concat_iff] at hbegins'
          rw [hbegins'.resolve_right hbegins, List.drop_length]
          rfl
  unfold wordStands
  simp only [hsame, hpreceding]

theorem wordAt?_snoc {preceding preceding' : Option Char}
    (hpreceding : preceding'.any isWordPart = preceding.any isWordPart) (words : List String)
    (cs : List Char) :
    wordAt? preceding' (cs ++ [')']) words = wordAt? preceding cs words := by
  induction words with
  | nil => rfl
  | cons word words ih => rw [wordAt?, wordAt?, wordStands_snoc hpreceding, ih]

/-- Nor does a number begin with it. -/
theorem startsNumber_snoc (cs : List Char) :
    Scan.startsNumber (cs ++ [')']) = Scan.startsNumber cs := by
  -- Two characters are looked at, the second only behind a point.
  rcases cs with _ | ⟨c, _ | ⟨d, cs⟩⟩
  · rfl
  · by_cases hc : c = '.'
    · subst hc
      rfl
    · simp [Scan.startsNumber, hc]
  · by_cases hc : c = '.'
    · subst hc
      rfl
    · simp [Scan.startsNumber, hc]

/-- An exponent does not go on with it. -/
theorem isExponentSign_snoc (hbuffer : b.buffer = a.buffer) (c : Char) (tail : List Char) :
    b.isExponentSign c (tail ++ [')']) = a.isExponentSign c tail := by
  unfold Scan.isExponentSign
  rw [hbuffer]
  cases tail <;> rfl

/-- A unit may stand in front of it as at the end. -/
theorem isUnitSuffix_snoc (hbuffer : b.buffer = a.buffer) (units : UnitRegistry) (c : Char)
    (tail : List Char) : b.isUnitSuffix units c (tail ++ [')']) = a.isUnitSuffix units c tail := by
  unfold Scan.isUnitSuffix
  rw [hbuffer]
  cases tail <;> rfl

/-- What is the sign of a number in front of it is one at the end, if an operand
is due. -/
theorem isSign_snoc (hbuffer : b.buffer = a.buffer)
    (hdue : Scan.operandDue b.segments.getLast? = Scan.operandDue a.segments.getLast?)
    (operator : OperatorSymbol) (tail : List Char) :
    b.isSign operator (tail ++ [')']) = a.isSign operator tail := by
  unfold Scan.isSign
  rw [hbuffer, hdue, startsNumber_snoc]

-- ============================================================== two scans

namespace Scan

/-- Two scans at the same place of a text, the second of which reads it as the
argument of a call. -/
structure Abreast (name : String) (source : List Char) (a b : Scan) : Prop where
  parts : ∃ passed, source = passed ++ a.rest ∧ a.position = passed.length
    ∧ a.preceding = passed.getLast?
  rest : b.rest = a.rest ++ [')']
  position : b.position = a.position + (name.length + 1)
  preceding : b.preceding.any isWordPart = a.preceding.any isWordPart

namespace Abreast

/-- Both stay abreast past a character, whether it is kept or skipped. -/
theorem pass (h : Abreast name source a b) (hrest : a.rest = c :: tail) {m m' : Move}
    (hm : m = .keep ∨ m = .skip) (hm' : m' = .keep ∨ m' = .skip) :
    Abreast name source (a.apply .standard c tail m) (b.apply .standard c (tail ++ [')']) m') := by
  obtain ⟨passed, hsource, hposition, hpreceding⟩ := h.parts
  have hpassed := (Along.mk hsource hposition hpreceding).pass hrest hm .standard
  have hshifted : b.position + 1 = a.position + 1 + (name.length + 1) := by
    rw [h.position]
    omega
  rcases hm with rfl | rfl <;> rcases hm' with rfl | rfl <;>
    exact ⟨⟨_, hpassed.parts, hpassed.position, hpassed.preceding⟩, rfl, hshifted, rfl⟩

/-- Both emit a segment of the same text. -/
theorem emit (h : Abreast name source a b) (hrest : a.rest = c :: tail) {kind : SegmentKind}
    {text : String} (hne : text ≠ "") (hbegins : text.toList <+: c :: tail) :
    Abreast name source (a.apply .standard c tail (.emit kind text))
      (b.apply .standard c (tail ++ [')']) (.emit kind text)) := by
  obtain ⟨passed, hsource, hposition, hpreceding⟩ := h.parts
  have hpassed : Along source (passed ++ text.toList)
      (a.apply .standard c tail (.emit kind text)) :=
    Along.emit ⟨hsource, hposition, hpreceding⟩ hrest hne hbegins .standard
  -- The segment lies within the text, so the parenthesis stays behind it.
  have hlength : text.length - 1 ≤ tail.length := by
    have hle := hbegins.length_le
    rw [String.length_toList, List.length_cons] at hle
    omega
  refine ⟨⟨_, hpassed.parts, hpassed.position, hpassed.preceding⟩, ?_, ?_, rfl⟩
  · show (tail ++ [')']).drop (text.length - 1) = tail.drop (text.length - 1) ++ [')']
    rw [List.drop_append_of_le_length hlength]
  · show b.position + text.length = a.position + text.length + (name.length + 1)
    rw [h.position]
    omega

/-- The same word stands at both. -/
theorem wordAt? (h : Abreast name source a b) (c : Char) (tail : List Char) :
    wordAt? b.preceding (c :: (tail ++ [')'])) SymbolTable.standard.words
      = UnitCalc.wordAt? a.preceding (c :: tail) SymbolTable.standard.words :=
  wordAt?_snoc h.preceding SymbolTable.standard.words (c :: tail)

end Abreast

/-- A literal that is collected further on begins further on. -/
theorem bufferStart_keep {n : Nat} (hbuffer : b.buffer = a.buffer)
    (hstart : a.buffer ≠ [] → b.bufferStart = a.bufferStart + n)
    (hposition : b.position = a.position + n) (symbols : SymbolTable) (c : Char)
    (tail tail' : List Char) :
    (b.apply symbols c tail' .keep).bufferStart
      = (a.apply symbols c tail .keep).bufferStart + n := by
  show (if b.buffer.isEmpty then b.position else b.bufferStart)
    = (if a.buffer.isEmpty then a.position else a.bufferStart) + n
  rw [hbuffer]
  cases hcollected : a.buffer with
  | nil => exact hposition
  | cons d more => exact hstart (by simp [hcollected])

/-- And it is ended as the same literal further on. -/
theorem flush_segments_behind (front : List Segment) {n : Nat} (hbuffer : b.buffer = a.buffer)
    (hstart : a.buffer ≠ [] → b.bufferStart = a.bufferStart + n)
    (hsegments : b.segments = front ++ a.segments.map (Segment.moved (· + n))) :
    b.flush.segments = front ++ a.flush.segments.map (Segment.moved (· + n)) := by
  unfold Scan.flush
  simp only [hbuffer, hsegments]
  split
  · rfl
  · next hempty =>
      have hne : a.buffer ≠ [] := by
        intro hnil
        rw [hnil] at hempty
        exact hempty rfl
      rw [hstart hne]
      simp [Segment.moved, Nat.add_right_comm]

/-- Two scans that collect the same literal behind the same segments, but for
the call around the second. -/
structure Alike (name : String) (a b : Scan) : Prop where
  buffer : b.buffer = a.buffer
  start : a.buffer ≠ [] → b.bufferStart = a.bufferStart + (name.length + 1)
  segments : b.segments = inCall name a.segments

/-- Scans that end the same literal go on alike behind a gap. -/
theorem alike_skip (h : b.flush.segments = inCall name a.flush.segments) (symbols : SymbolTable)
    (c : Char) (tail tail' : List Char) :
    Alike name (a.apply symbols c tail .skip) (b.apply symbols c tail' .skip) :=
  ⟨rfl, fun hne => absurd rfl hne, h⟩

/-- Scans that end the same literal go on alike behind a segment. -/
theorem alike_emit (h : b.flush.segments = inCall name a.flush.segments)
    (hposition : b.position = a.position + (name.length + 1)) (symbols : SymbolTable) (c : Char)
    (tail tail' : List Char) (kind : SegmentKind) (text : String) :
    Alike name (a.apply symbols c tail (.emit kind text))
      (b.apply symbols c tail' (.emit kind text)) := by
  refine ⟨rfl, fun hne => absurd rfl hne, ?_⟩
  show b.flush.segments ++ [⟨kind, text, b.position⟩]
    = inCall name (a.flush.segments ++ [⟨kind, text, a.position⟩])
  rw [inCall_append, h, hposition]
  rfl

namespace Alike

/-- Both end the same literal. -/
theorem flush (h : Alike name a b) : b.flush.segments = inCall name a.flush.segments :=
  flush_segments_behind [⟨.function, name, 0⟩, ⟨.leftParen, "(", name.length⟩] h.buffer h.start
    h.segments

theorem keep (h : Alike name a b) (hposition : b.position = a.position + (name.length + 1))
    (symbols : SymbolTable) (c : Char) (tail tail' : List Char) :
    Alike name (a.apply symbols c tail .keep) (b.apply symbols c tail' .keep) := by
  refine ⟨?_, fun _ => ?_, h.segments⟩
  · show b.buffer ++ [c] = a.buffer ++ [c]
    rw [h.buffer]
  · exact bufferStart_keep h.buffer h.start hposition symbols c tail tail'

/-- What is no part of an argument is the same to both. -/
theorem moveAt (h : Alike name a b) (units : UnitRegistry) (c : Char) (tail : List Char)
    (found : Option String) :
    b.moveAt units c (tail ++ [')']) found = a.moveAt units c tail found := by
  have hsign : ∀ operator, b.isSign operator (tail ++ [')']) = a.isSign operator tail := by
    refine fun operator => isSign_snoc h.buffer ?_ operator tail
    rw [h.segments, operandDue_inCall]
  unfold Scan.moveAt
  simp only [hsign, isExponentSign_snoc h.buffer, isUnitSuffix_snoc h.buffer]

end Alike

end Scan

end UnitCalc
