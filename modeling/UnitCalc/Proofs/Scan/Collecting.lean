/-
How literals come about.

A scan collects the characters of a literal one at a time, at consecutive
positions and without emitting anything in between; so for every literal among
the segments there is a state of the scan that has collected all of it but its
last character (`Segment.literal_collected`). What is asked about a literal
while it is read is asked at such states.

# Moves

Whatever the table, there are four kinds of moves (`Lexicon.Moved`). Whoever
argues about all moves splits this relation and not the tests that lead to
them.

# States

The states of a scan are numbered by the moves that lead to them
(`Scan.after?`), so that a state can be pointed at, and a run goes through all
of them. `Scan.Along` says where in the source a state is, and `Scan.framesOf`
which calls are open behind some segments.

# The invariant

`Scan.Traced` goes from each state to the next. It keeps the same fact of two
things, the literal that is collected now and all that are ended: each prefix
of them was collected before the character behind it. The literal that is
ended takes its own prefixes along, and so the second part follows from the
first.

That segments are words where they stand (`Proofs/Scan/Words`), that calls are
around them (`Proofs/Scan/Frames`) and that arguments are handed to what took
them (`Proofs/Evaluation/Governing`) all start from here.
-/
import UnitCalc.Proofs.Error.Answers
import UnitCalc.Proofs.Scan.Moves

namespace UnitCalc

open Text

-- ==================================================================== moves

theorem wordStands_of_wordAt? {words : List String} {preceding : Option Char} {rest : List Char}
    {word : String} (h : wordAt? preceding rest words = .ok (some word)) :
    wordStands preceding rest word = .ok true := by
  induction words with
  | nil => cases h
  | cons first words ih =>
      rw [wordAt?] at h
      obtain ⟨stands, hstands, h⟩ := bind_eq_ok.1 h
      cases stands with
      | true =>
          cases h
          exact hstands
      | false => exact ih h

/-- A word that stands somewhere has characters, and they come next. -/
theorem begins_of_wordStands {preceding : Option Char} {rest : List Char} {word : String}
    (h : wordStands preceding rest word = .ok true) : word ≠ "" ∧ word.toList <+: rest := by
  unfold wordStands at h
  simp only at h
  split at h
  · next hfound =>
      have hbegins : word.toList.isPrefixOf rest = true := (Bool.and_eq_true_iff.1 hfound).1
      refine ⟨?_, List.isPrefixOf_iff_prefix.1 hbegins⟩
      rintro rfl
      cases h
  · cases h

/-- The characters that structure a source, with their kinds. -/
theorem structural?_eq_some {c : Char} {kind : SegmentKind} :
    structural? c = some kind
      ↔ c = '(' ∧ kind = .leftParen ∨ c = ')' ∧ kind = .rightParen ∨ c = ',' ∧ kind = .comma := by
  unfold structural?
  split <;> simp_all [eq_comm]

theorem singleton_ne_empty (c : Char) : String.singleton c ≠ "" := by
  rw [← String.toList_inj.ne, String.toList_singleton]
  exact List.cons_ne_nil c []

theorem singleton_begins (c : Char) (tail : List Char) :
    (String.singleton c).toList <+: c :: tail := by
  rw [String.toList_singleton]
  exact List.prefix_append [c] tail

/-- The moves there are at a character. -/
inductive Lexicon.Moved (c : Char) (tail : List Char) : Move → Prop
  | keep (plain : structural? c = none) : Moved c tail .keep
  | skip (gap : isGap c = true) : Moved c tail .skip
  | structural {kind : SegmentKind} (structures : structural? c = some kind) :
      Moved c tail (.emit kind (String.singleton c))
  | symbol {kind : SegmentKind} {text : String} (names : kind = .function ∨ kind = .operator)
      (nonempty : text ≠ "") (begins : text.toList <+: c :: tail) : Moved c tail (.emit kind text)

/-- Whatever the table, a move is one of these. -/
theorem Lexicon.moved {lexicon : Lexicon} {s : Scan} {c : Char} {tail : List Char} {move : Move}
    (h : lexicon.move s c tail = .ok move) : Moved c tail move := by
  unfold Lexicon.move at h
  split at h
  · next kind hkind =>
      cases h
      exact .structural hkind
  · next hplain =>
      obtain ⟨takes, -, h⟩ := bind_eq_ok.1 h
      cases takes with
      | true =>
          cases h
          exact .keep hplain
      | false =>
          obtain ⟨found, hfound, h⟩ := bind_eq_ok.1 h
          cases found with
          | some word =>
              cases h
              obtain ⟨hne, hbegins⟩ := begins_of_wordStands (wordStands_of_wordAt? hfound)
              refine .symbol ?_ hne hbegins
              split
              · exact Or.inl rfl
              · exact Or.inr rfl
          | none =>
              simp only at h
              split at h
              · split at h
                · cases h
                  exact .keep hplain
                · cases h
                  exact .symbol (Or.inr rfl) (singleton_ne_empty c) (singleton_begins c tail)
              · split at h
                · next hgap =>
                    cases h
                    exact .skip hgap
                · cases h
                  exact .keep hplain

/-- What a move emits has characters, and they are those that come next. -/
theorem Lexicon.begins_of_emit {lexicon : Lexicon} {s : Scan} {c : Char} {tail : List Char}
    {kind : SegmentKind} {text : String} (h : lexicon.move s c tail = .ok (.emit kind text)) :
    text ≠ "" ∧ text.toList <+: c :: tail := by
  cases Lexicon.moved h with
  | structural _ => exact ⟨singleton_ne_empty c, singleton_begins c tail⟩
  | symbol _ hne hbegins => exact ⟨hne, hbegins⟩

-- =================================================================== states

namespace Scan

variable {lexicon : Lexicon} {start s s' : Scan} {n : Nat}

/-- A scan one move on. -/
def next? (lexicon : Lexicon) (s : Scan) : Option Scan :=
  match s.rest with
  | [] => none
  | c :: tail => (lexicon.move s c tail).toOption.map (s.apply lexicon.symbols c tail)

/-- A scan so many moves on. -/
def after? (lexicon : Lexicon) (start : Scan) : Nat → Option Scan
  | 0 => some start
  | n + 1 => (after? lexicon start n).bind (next? lexicon)

theorem next?_eq_some (h : next? lexicon s = some s') :
    ∃ c tail move, s.rest = c :: tail ∧ lexicon.move s c tail = .ok move
      ∧ s' = s.apply lexicon.symbols c tail move := by
  unfold next? at h
  split at h
  · cases h
  · next c tail hrest =>
      cases hmove : lexicon.move s c tail with
      | error fault =>
          rw [hmove] at h
          cases h
      | ok move =>
          rw [hmove] at h
          exact ⟨c, tail, move, hrest, hmove, (Option.some.inj h).symm⟩

/-- There are no more moves than characters. -/
theorem length_after? (h : after? lexicon start n = some s) :
    s.rest.length + n ≤ start.rest.length := by
  induction n generalizing s with
  | zero =>
      obtain rfl := Option.some.inj h
      exact Nat.le_refl _
  | succ n ih =>
      obtain ⟨before, hbefore, hnext⟩ := Option.bind_eq_some_iff.1 h
      obtain ⟨c, tail, move, hrest, -, rfl⟩ := next?_eq_some hnext
      have hshorter := before.rest_apply_lt lexicon.symbols c tail move
      have hle := ih hbefore
      rw [hrest] at hle
      omega

/-- A run ends in the state behind its last move. -/
theorem exists_after?_of_run {scanned : Scan} (hs : after? lexicon start n = some s)
    (h : run lexicon s = .ok scanned) : ∃ m, after? lexicon start m = some scanned := by
  -- The number of moves that are left is not known, but what is left of the source gets shorter.
  induction hlength : s.rest.length using Nat.strongRecOn generalizing s n with
  | ind length ih =>
      cases hrest : s.rest with
      | nil =>
          rw [run_nil hrest] at h
          exact ⟨n, by rw [hs, Except.ok.inj h]⟩
      | cons c tail =>
          cases hmove : lexicon.move s c tail with
          | error fault =>
              rw [run_fault hrest hmove] at h
              cases h
          | ok move =>
              rw [run_move hrest hmove] at h
              have hnext : after? lexicon start (n + 1)
                  = some (s.apply lexicon.symbols c tail move) := by
                rw [after?, hs, Option.bind_some, next?, hrest]
                simp only [hmove]
                rfl
              have hshorter := s.rest_apply_lt lexicon.symbols c tail move
              rw [← hrest, hlength] at hshorter
              exact ih _ hshorter hnext h rfl

/-- A run goes on from every state it comes by. -/
theorem run_after? (h : after? lexicon start n = some s) : run lexicon start = run lexicon s := by
  induction n generalizing s with
  | zero => rw [Option.some.inj h]
  | succ n ih =>
      obtain ⟨before, hbefore, hnext⟩ := Option.bind_eq_some_iff.1 h
      obtain ⟨c, tail, move, hrest, hmove, rfl⟩ := next?_eq_some hnext
      rw [ih hbefore, run_move hrest hmove]

-- =================================================================== places

/-- A scan that has passed a part of its source: the rest is still to come, and
the last character passed stands right before it. -/
structure Along (source passed : List Char) (s : Scan) : Prop where
  parts : source = passed ++ s.rest
  position : s.position = passed.length
  preceding : s.preceding = passed.getLast?

namespace Along

variable {source passed : List Char} {c : Char} {tail : List Char}

theorem nothing (source : List Char) : Along source [] { rest := source } :=
  ⟨rfl, rfl, rfl⟩

/-- A character is passed, whether it is kept or skipped. -/
theorem pass (h : Along source passed s) (hrest : s.rest = c :: tail) {move : Move}
    (hmove : move = .keep ∨ move = .skip) (symbols : SymbolTable) :
    Along source (passed ++ [c]) (s.apply symbols c tail move) := by
  have hparts : source = (passed ++ [c]) ++ tail := by
    rw [h.parts, hrest, List.append_assoc, List.singleton_append]
  have hposition : s.position + 1 = (passed ++ [c]).length := by
    rw [h.position, List.length_append, List.length_singleton]
  have hpreceding : some c = (passed ++ [c]).getLast? := List.getLast?_concat.symm
  rcases hmove with rfl | rfl <;> exact ⟨hparts, hposition, hpreceding⟩

/-- A segment that is emitted is passed as a whole. -/
theorem emit (h : Along source passed s) (hrest : s.rest = c :: tail) {kind : SegmentKind}
    {text : String} (hne : text ≠ "") (hbegins : text.toList <+: c :: tail)
    (symbols : SymbolTable) :
    Along source (passed ++ text.toList) (s.apply symbols c tail (.emit kind text)) := by
  obtain ⟨more, hmore⟩ := hbegins
  obtain ⟨first, letters, hletters⟩ :=
    List.exists_cons_of_ne_nil (mt String.toList_eq_nil_iff.1 hne)
  have htail : tail = letters ++ more := by
    rw [hletters, List.cons_append] at hmore
    exact (List.cons.inj hmore).2.symm
  have hlength : text.length - 1 = letters.length := by
    rw [← String.length_toList, hletters, List.length_cons, Nat.add_sub_cancel]
  constructor
  · show source = passed ++ text.toList ++ tail.drop (text.length - 1)
    rw [hlength, htail, List.drop_left, h.parts, hrest, List.append_assoc, hmore]
  · show s.position + text.length = (passed ++ text.toList).length
    rw [h.position, List.length_append, String.length_toList]
  · show text.toList.getLast? = (passed ++ text.toList).getLast?
    rw [hletters, List.getLast?_append, List.getLast?_cons, Option.some_or]

/-- Every move passes something. -/
theorem apply (h : Along source passed s) (hrest : s.rest = c :: tail) {move : Move}
    (hmove : lexicon.move s c tail = .ok move) :
    ∃ passed', Along source passed' (s.apply lexicon.symbols c tail move) := by
  cases move with
  | keep => exact ⟨_, h.pass hrest (Or.inl rfl) _⟩
  | skip => exact ⟨_, h.pass hrest (Or.inr rfl) _⟩
  | emit kind text =>
      obtain ⟨hne, hbegins⟩ := Lexicon.begins_of_emit hmove
      exact ⟨_, h.emit hrest hne hbegins _⟩

end Along

-- =================================================================== frames

/-- The calls around the position behind some segments. -/
def framesOf (symbols : SymbolTable) (segments : List Segment) : List Frame :=
  segments.foldl (fun frames x => framesAfter symbols x.kind x.text frames) []

theorem framesOf_concat (symbols : SymbolTable) (segments : List Segment) (x : Segment) :
    framesOf symbols (segments ++ [x])
      = framesAfter symbols x.kind x.text (framesOf symbols segments) := by
  unfold framesOf
  rw [List.foldl_append]
  rfl

/-- Ended literals open and close no calls. -/
theorem framesOf_flush (symbols : SymbolTable) (s : Scan) :
    framesOf symbols s.flush.segments = framesOf symbols s.segments := by
  unfold flush
  simp only
  split
  · rfl
  · rw [framesOf_concat]
    rfl

/-- What is emitted is no literal. -/
theorem kind_of_move {c : Char} {tail : List Char} {kind : SegmentKind} {text : String}
    (h : lexicon.move s c tail = .ok (.emit kind text)) : kind ≠ .literal := by
  cases Lexicon.moved h with
  | structural hkind =>
      rcases structural?_eq_some.1 hkind with ⟨-, rfl⟩ | ⟨-, rfl⟩ | ⟨-, rfl⟩ <;> simp
  | symbol hkind _ _ => rcases hkind with rfl | rfl <;> simp

-- ================================================================ invariant

theorem not_concat_prefix_nil {α : Type} (front : List α) (last : α) :
    ¬ front ++ [last] <+: [] := by
  intro hprefix
  have hnil := List.prefix_nil.1 hprefix
  simp at hnil

/-- A state of a scan with certain segments that has collected a text and
stands before a character. -/
def Collects (lexicon : Lexicon) (start : Scan) (segments : List Segment) (collected : List Char)
    (c : Char) (position : Nat) : Prop :=
  ∃ n s tail, after? lexicon start n = some s ∧ s.segments = segments ∧ s.buffer = collected
    ∧ s.rest = c :: tail ∧ s.position = position

/-- The literal being collected lies right before the position, and its
characters, like those of the literals before, were collected one by one. -/
structure Traced (lexicon : Lexicon) (start s : Scan) : Prop where
  frames : s.frames = framesOf lexicon.symbols s.segments
  placed : s.buffer ≠ [] → s.bufferStart + s.buffer.length = s.position
  collected : ∀ a c, a ++ [c] <+: s.buffer →
    Collects lexicon start s.segments a c (s.bufferStart + a.length)
  literals : ∀ before x, before ++ [x] <+: s.segments → x.kind = .literal →
    ∃ a c position, Collects lexicon start before a c position ∧ x.position ≤ position
      ∧ position + 1 = x.position + x.text.length ∧ trimStart (a ++ [c]) = x.text.toList

namespace Traced

/-- Also the literal that is ended was collected so. -/
theorem flush (h : Traced lexicon start s) :
    ∀ before x, before ++ [x] <+: s.flush.segments → x.kind = .literal →
      ∃ a c position, Collects lexicon start before a c position ∧ x.position ≤ position
        ∧ position + 1 = x.position + x.text.length ∧ trimStart (a ++ [c]) = x.text.toList := by
  intro before x hprefix hkind
  unfold Scan.flush at hprefix
  dsimp only at hprefix
  split at hprefix
  · exact h.literals before x hprefix hkind
  · next hempty =>
      -- The prefix ends either with the new literal, whose characters were collected, or earlier.
      rcases List.prefix_concat_iff.1 hprefix with hlast | hearlier
      · obtain ⟨rfl, hx⟩ := List.append_inj' hlast rfl
        obtain rfl := List.singleton_inj.1 hx
        have hne : trim s.buffer ≠ [] := by simpa using hempty
        obtain ⟨a, c, hcollected, htext, hlength⟩ := trim_collected hne
        have hlong : 0 < (trim s.buffer).length := List.length_pos_iff.2 hne
        refine ⟨a, c, _, h.collected a c hcollected, ?_, ?_, by rw [htext, String.toList_ofList]⟩
        · dsimp only
          omega
        · dsimp only
          rw [String.length_ofList]
          omega
      · exact h.literals before x hearlier hkind

theorem skip (h : Traced lexicon start s) (c : Char) (tail : List Char) :
    Traced lexicon start (s.apply lexicon.symbols c tail .skip) where
  frames := by
    show s.frames = framesOf lexicon.symbols s.flush.segments
    rw [framesOf_flush, h.frames]
  placed hne := absurd rfl hne
  collected _ _ hprefix := absurd hprefix (not_concat_prefix_nil _ _)
  literals := h.flush

theorem emit (h : Traced lexicon start s) {kind : SegmentKind} (hkind : kind ≠ .literal)
    (text : String) (c : Char) (tail : List Char) :
    Traced lexicon start (s.apply lexicon.symbols c tail (.emit kind text)) where
  frames := by
    show framesAfter lexicon.symbols kind text s.frames
      = framesOf lexicon.symbols (s.flush.segments ++ [⟨kind, text, s.position⟩])
    rw [framesOf_concat, framesOf_flush, h.frames]
  placed hne := absurd rfl hne
  collected _ _ hprefix := absurd hprefix (not_concat_prefix_nil _ _)
  literals before x hprefix hliteral := by
    rcases List.prefix_concat_iff.1 hprefix with hlast | hearlier
    · obtain ⟨-, hx⟩ := List.append_inj' hlast rfl
      obtain rfl := List.singleton_inj.1 hx
      exact absurd hliteral hkind
    · exact h.flush before x hearlier hliteral

theorem keep (h : Traced lexicon start s) (hs : after? lexicon start n = some s) {c : Char}
    {tail : List Char} (hrest : s.rest = c :: tail) :
    Traced lexicon start (s.apply lexicon.symbols c tail .keep) where
  frames := h.frames
  placed _ := by
    show (if s.buffer.isEmpty then s.position else s.bufferStart) + (s.buffer ++ [c]).length
      = s.position + 1
    rw [List.length_append, List.length_singleton]
    cases hbuffer : s.buffer with
    | nil => rfl
    | cons d more =>
        have hplaced := h.placed (by simp [hbuffer])
        rw [hbuffer] at hplaced
        rw [List.isEmpty_cons, if_neg Bool.false_ne_true]
        omega
  collected a d hprefix := by
    show Collects lexicon start s.segments a d
      ((if s.buffer.isEmpty then s.position else s.bufferStart) + a.length)
    rcases List.prefix_concat_iff.1 hprefix with hlast | hearlier
    · -- The character that is kept was read in this state.
      obtain ⟨rfl, hd⟩ := List.append_inj' hlast rfl
      obtain rfl := List.singleton_inj.1 hd
      refine ⟨n, s, tail, hs, rfl, rfl, hrest, ?_⟩
      cases hbuffer : s.buffer with
      | nil => rfl
      | cons e more =>
          have hplaced := h.placed (by simp [hbuffer])
          rw [hbuffer] at hplaced
          exact hplaced.symm
    · have hne : s.buffer.isEmpty = false := by
        cases hbuffer : s.buffer with
        | nil => exact absurd (hbuffer ▸ hearlier) (not_concat_prefix_nil a d)
        | cons => rfl
      rw [hne]
      exact h.collected a d hearlier
  literals := h.literals

/-- The invariant holds behind every move. -/
theorem next (h : Traced lexicon start s) (hs : after? lexicon start n = some s)
    (hnext : next? lexicon s = some s') : Traced lexicon start s' := by
  obtain ⟨c, tail, move, hrest, hmove, rfl⟩ := next?_eq_some hnext
  cases move with
  | keep => exact h.keep hs hrest
  | skip => exact h.skip c tail
  | emit kind text => exact h.emit (kind_of_move hmove) text c tail

end Traced

/-- A scan from the start of a source is traced in every state. -/
theorem traced (rest : List Char) (h : after? lexicon { rest } n = some s) :
    Traced lexicon { rest } s := by
  induction n generalizing s with
  | zero =>
      obtain rfl := Option.some.inj h
      exact ⟨rfl, fun hne => absurd rfl hne,
        fun _ _ hprefix => absurd hprefix (not_concat_prefix_nil _ _),
        fun _ _ hprefix => absurd hprefix (not_concat_prefix_nil _ _)⟩
  | succ n ih =>
      obtain ⟨before, hbefore, hnext⟩ := Option.bind_eq_some_iff.1 h
      exact (ih hbefore).next hbefore hnext

end Scan

-- ================================================================= literals

namespace Segment

variable {lexicon : Lexicon} {limits : Limits} {source : String} {before more : List Segment}
  {x : Segment}

/-- The segments of a source are those that a scan of it has at its end. -/
theorem run_of_ofSource {segments : List Segment}
    (h : Segment.ofSource? lexicon limits source = .ok segments) :
    ∃ scanned, Scan.run lexicon { rest := source.toList } = .ok scanned
      ∧ scanned.flush.segments = segments := by
  unfold ofSource? at h
  obtain ⟨_, -, h⟩ := bind_eq_ok.1 h
  obtain ⟨scanned, hrun, h⟩ := bind_eq_ok.1 h
  exact ⟨scanned, hrun, pure_eq_ok.1 h⟩

/-- Every literal of a source was collected up to its last character before
that was read, with the calls of the segments before around it. -/
theorem literal_collected
    (h : Segment.ofSource? lexicon limits source = .ok (before ++ x :: more))
    (hkind : x.kind = .literal) :
    ∃ n s c tail, Scan.after? lexicon { rest := source.toList } n = some s
      ∧ s.rest = c :: tail ∧ x.position ≤ s.position
      ∧ s.position + 1 = x.position + x.text.length
      ∧ s.frames = Scan.framesOf lexicon.symbols before
      ∧ trimStart (s.buffer ++ [c]) = x.text.toList := by
  obtain ⟨scanned, hrun, hsegments⟩ := run_of_ofSource h
  have hstart : Scan.after? lexicon { rest := source.toList } 0 = some { rest := source.toList } :=
    rfl
  obtain ⟨m, hscanned⟩ := Scan.exists_after?_of_run hstart hrun
  have hprefix : before ++ [x] <+: scanned.flush.segments := by
    rw [hsegments]
    exact ⟨more, by simp⟩
  obtain ⟨a, c, position, ⟨n, s, tail, hs, rfl, rfl, hrest, rfl⟩, hfirst, hlast, htext⟩ :=
    (Scan.traced source.toList hscanned).flush before x hprefix hkind
  exact ⟨n, s, c, tail, hs, hrest, hfirst, hlast, (Scan.traced source.toList hs).frames, htext⟩

/-- Every character of a segment was kept because the argument being read
takes it. -/
def Taken (lexicon : Lexicon) (source : String) (x : Segment) : Prop :=
  ∀ n < source.length, ∀ s ∈ Scan.after? lexicon { rest := source.toList } n,
    x.position ≤ s.position → s.position < x.position + x.text.length →
      ∃ c ∈ s.rest.head?, s.argumentTakes lexicon.symbols c = .ok true

/-- There are finitely many states, and the scan is run to each of them. -/
instance (lexicon : Lexicon) (source : String) (x : Segment) :
    Decidable (Taken lexicon source x) :=
  -- The character is looked at, not searched for among all there are.
  decidable_of_iff
    (∀ n ∈ List.range source.length, ∀ s ∈ (Scan.after? lexicon { rest := source.toList } n).toList,
      x.position ≤ s.position → s.position < x.position + x.text.length →
        s.rest.head?.any (fun c => decide (s.argumentTakes lexicon.symbols c = .ok true)) = true)
    (by simp only [Taken, List.mem_range, Option.mem_toList, Option.mem_def, Option.any_eq_true,
      decide_eq_true_eq])

/-- A literal that the argument of a call takes is accepted as a whole, with
the blanks in front of it, by one of the parameters that the call has left. -/
theorem Taken.acceptedBy {frame : Frame} {outer : List Frame} (htaken : Taken lexicon source x)
    (h : Segment.ofSource? lexicon limits source = .ok (before ++ x :: more))
    (hkind : x.kind = .literal)
    (hframes : Scan.framesOf lexicon.symbols before = frame :: outer) (hdepth : 1 ≤ frame.depth) :
    ∃ tentative, trimStart tentative = x.text.toList
      ∧ acceptedBy lexicon.symbols (.text (String.ofList tentative))
        (frame.function.parameters.drop frame.commas) = .ok true := by
  obtain ⟨n, s, c, tail, hs, hrest, hfirst, hlast, hcalls, htext⟩ := literal_collected h hkind
  have hbound := Scan.length_after? hs
  rw [hrest, List.length_cons, String.length_toList] at hbound
  obtain ⟨d, hd, htakes⟩ := htaken n (by omega) s hs hfirst (by omega)
  rw [hrest] at hd
  obtain rfl := Option.some.inj hd
  refine ⟨s.buffer ++ [c], htext, ?_⟩
  have hframe : s.argumentFrame? = some frame := by
    unfold Scan.argumentFrame?
    rw [hcalls, hframes, List.head?_cons, Option.filter_some, decide_eq_true hdepth]
    rfl
  unfold Scan.argumentTakes at htakes
  rw [hframe] at htakes
  exact htakes

end Segment

end UnitCalc
