/-
Words where they stand.

A word stands at a place of a source if its characters are there, a
parenthesis or a gap comes right behind them, and, if it begins like a name,
no name or number goes right up to it (`Stands`). This is said of the source
and a place in it alone; the test of a scan, which looks at what is left and
at the character passed last, agrees with it (`wordStands_iff`).

# The longest word

The words of a table are tried longest first, so the one that is found is as
long as any that stands there (`longest_of_wordAt?`). Only here does a scan
come by functions and by operators of more than one character
(`Lexicon.found_of_emit`), and what it makes of a word depends on nothing but
the functions of the table.

# Whole sources

That a word stands at its place is known when it is emitted, from where the
scan is (`Scan.Along`), and never changes, since it speaks of the source. So
it is an invariant of the run together with the place (`Scan.run_words`), and
`Segment.ofSource_words` is what it says at the end.
-/
import UnitCalc.Config.Basic
import UnitCalc.Proofs.Scan.Collecting
import UnitCalc.Proofs.Scan.Total

namespace UnitCalc

open Text

-- =================================================================== places

/-- Whether a word stands at a place of a source. -/
structure Stands (source : List Char) (i : Nat) (word : String) : Prop where
  /-- Its characters are there. -/
  begins : word.toList <+: source.drop i
  /-- A parenthesis opens or a gap comes right behind it. -/
  ends : ∃ c, source[i + word.length]? = some c
    ∧ (c = '(' ∨ c = ' ' ∨ c = '\t' ∨ c = '\n' ∨ c = '\r')
  /-- A word that begins with a letter or an underscore goes on with no name or number. -/
  apart : ∀ first ∈ word.toList.head?, isLetter first = true ∨ first = '_' →
    ∀ before, i = before + 1 → ∀ c ∈ source[before]?, isAlphanumeric c = false ∧ c ≠ '_' ∧ c ≠ '.'

theorem endsWord_iff {next : Option Char} :
    endsWord next = true
      ↔ ∃ c, next = some c ∧ (c = '(' ∨ c = ' ' ∨ c = '\t' ∨ c = '\n' ∨ c = '\r') := by
  unfold endsWord isGap
  rw [Option.any_eq_true]
  simp only [Bool.or_eq_true, beq_iff_eq, or_assoc]

theorem isWordStart_iff {c : Char} : isWordStart c = true ↔ isLetter c = true ∨ c = '_' := by
  unfold isWordStart
  rw [Bool.or_eq_true, beq_iff_eq]

theorem isWordPart_eq_false {c : Char} :
    isWordPart c = false ↔ isAlphanumeric c = false ∧ c ≠ '_' ∧ c ≠ '.' := by
  unfold isWordPart
  rw [Bool.or_eq_false_iff, Bool.or_eq_false_iff, beq_eq_false_iff_ne, beq_eq_false_iff_ne,
    and_assoc]

/-- What comes right before a place of a text is the end of what is in front of
it. -/
theorem getLast?_any_eq_false {passed : List Char} (rest : List Char) {p : Char → Bool} :
    passed.getLast?.any p = false
      ↔ ∀ before, passed.length = before + 1 → ∀ c ∈ (passed ++ rest)[before]?, p c = false := by
  -- In front of the first place there is nothing, and nothing is said of it.
  rcases List.eq_nil_or_concat passed with rfl | ⟨front, last, rfl⟩
  · simp
  · rw [List.concat_eq_append, List.getLast?_concat, Option.any_some, List.length_append,
      List.length_singleton, List.append_assoc]
    constructor
    · intro h before hbefore c hc
      obtain rfl := Nat.succ.inj hbefore
      rw [List.getElem?_append_right (Nat.le_refl _), Nat.sub_self] at hc
      obtain rfl := Option.some.inj hc
      exact h
    · intro h
      refine h front.length rfl last ?_
      rw [List.getElem?_append_right (Nat.le_refl _), Nat.sub_self]
      rfl

/-- A scan finds that a word stands where it does. -/
theorem wordStands_iff {passed rest : List Char} {word : String} (hne : word ≠ "") :
    wordStands passed.getLast? rest word = .ok true
      ↔ Stands (passed ++ rest) passed.length word := by
  obtain ⟨first, letters, hletters⟩ :=
    List.exists_cons_of_ne_nil (mt String.toList_eq_nil_iff.1 hne)
  have hnext : (passed ++ rest)[passed.length + word.length]?
      = (rest.drop word.toList.length).head? := by
    rw [List.getElem?_append_right (Nat.le_add_right _ _), Nat.add_sub_cancel_left,
      List.head?_drop, String.length_toList]
  have hapart : (!(isWordStart first && passed.getLast?.any isWordPart)) = true
      ↔ (isLetter first = true ∨ first = '_' → ∀ before, passed.length = before + 1 →
        ∀ c ∈ (passed ++ rest)[before]?, isAlphanumeric c = false ∧ c ≠ '_' ∧ c ≠ '.') := by
    rw [Bool.not_eq_true', Bool.and_eq_false_imp, isWordStart_iff, getLast?_any_eq_false rest]
    simp only [isWordPart_eq_false]
  have htest : wordStands passed.getLast? rest word = .ok true
      ↔ word.toList <+: rest ∧ endsWord (rest.drop word.toList.length).head? = true
        ∧ (!(isWordStart first && passed.getLast?.any isWordPart)) = true := by
    unfold wordStands
    rw [← List.isPrefixOf_iff_prefix, hletters]
    by_cases hfound : ((first :: letters).isPrefixOf rest
        && endsWord (rest.drop (first :: letters).length).head?) = true
    · rw [if_pos hfound]
      rw [Bool.and_eq_true] at hfound
      simp only [hfound, Except.ok.injEq, true_and]
    · rw [if_neg hfound]
      rw [Bool.and_eq_true] at hfound
      refine iff_of_false (by simp) fun h => hfound ⟨h.1, h.2.1⟩
  rw [htest, endsWord_iff, hapart]
  constructor
  · intro ⟨hbegins, hends, hfresh⟩
    refine ⟨by rwa [List.drop_left], by rwa [hnext], fun d hd => ?_⟩
    rw [hletters] at hd
    obtain rfl := Option.some.inj hd
    exact hfresh
  · intro h
    have hbegins := h.begins
    have hends := h.ends
    rw [List.drop_left] at hbegins
    rw [hnext] at hends
    exact ⟨hbegins, hends, h.apart first (by rw [hletters]; rfl)⟩

-- ==================================================================== search

/-- The word that is found is one of those searched for, and none that is longer
stands. -/
theorem longest_of_wordAt? {preceding : Option Char} {rest : List Char} {words : List String}
    {found : String} (hsorted : words.Pairwise fun v w => w.length ≤ v.length)
    (h : wordAt? preceding rest words = .ok (some found)) :
    ∀ word ∈ words, found.length < word.length →
      wordStands preceding rest word = .ok false := by
  induction hsorted with
  | nil => cases h
  | @cons first words hfirst _ ih =>
      rw [wordAt?] at h
      obtain ⟨stands, hstands, h⟩ := bind_eq_ok.1 h
      intro word hword hlonger
      -- If the first word stands, all others are no longer; if not, the search goes on.
      cases stands with
      | true =>
          obtain rfl : first = found := by
            cases h
            rfl
          rcases List.mem_cons.1 hword with rfl | hlater
          · omega
          · have hle := hfirst word hlater
            omega
      | false =>
          rcases List.mem_cons.1 hword with rfl | hlater
          · exact hstands
          · exact ih h word hlater hlonger

/-- Whether a table has a word: the name of a function, or the symbol of an
operator of more than one character. -/
def SymbolTable.HasWord (t : SymbolTable) (word : String) : Prop :=
  word ∈ t.functions.keys ∨ word ∈ t.operators.keys ∧ 1 < word.length

theorem SymbolTable.mem_words_of_hasWord {t : SymbolTable} {word : String} (h : t.HasWord word) :
    word ∈ t.words := by
  rw [words, mem_sortLabels, List.mem_append, List.mem_filter]
  exact h.imp_right fun hword => ⟨hword.1, decide_eq_true hword.2⟩

-- ==================================================================== moves

/-- Whether a segment is a function, or an operator of more than one
character. -/
def Segment.IsWord (x : Segment) : Prop :=
  x.kind = .function ∨ x.kind = .operator ∧ 1 < x.text.length

/-- Such a segment is a word that was found. -/
theorem Lexicon.found_of_emit {lexicon : Lexicon} {s : Scan} {c : Char} {tail : List Char}
    {kind : SegmentKind} {text : String} {position : Nat}
    (h : lexicon.move s c tail = .ok (.emit kind text))
    (hword : Segment.IsWord ⟨kind, text, position⟩) :
    wordAt? s.preceding (c :: tail) lexicon.words = .ok (some text)
      ∧ kind = if lexicon.symbols.functions.contains text then .function else .operator := by
  have hsingle : text ≠ String.singleton c ∨ kind = .function := by
    rcases hword with hfunction | ⟨-, hlong⟩
    · exact Or.inr hfunction
    · left
      rintro rfl
      simp at hlong
  unfold Lexicon.move at h
  split at h
  · next structuring hkind =>
      obtain ⟨rfl, rfl⟩ : structuring = kind ∧ String.singleton c = text := by
        cases h
        exact ⟨rfl, rfl⟩
      rcases structural?_eq_some.1 hkind with ⟨-, rfl⟩ | ⟨-, rfl⟩ | ⟨-, rfl⟩ <;>
        simp [Segment.IsWord] at hword
  · obtain ⟨takes, -, h⟩ := bind_eq_ok.1 h
    cases takes with
    | true => cases h
    | false =>
        obtain ⟨found, hfound, h⟩ := bind_eq_ok.1 h
        cases found with
        | some word =>
            cases h
            exact ⟨hfound, rfl⟩
        | none =>
            -- What else is emitted is an operator of one character.
            simp only at h
            split at h
            · split at h
              · cases h
              · cases h
                simp at hsingle
            · split at h
              · cases h
              · cases h

-- =================================================================== segments

/-- A word among the segments of a source. -/
structure Segment.StandsIn (t : SymbolTable) (source : List Char) (x : Segment) : Prop where
  /-- It stands at its place. -/
  stands : Stands source x.position x.text
  /-- No longer word of the table stands there. -/
  longest : ∀ word, t.HasWord word → x.text.length < word.length → ¬ Stands source x.position word
  /-- It is a function exactly if there is one of that name. -/
  function_iff : x.kind = .function ↔ ∃ f, t.functions.get? x.text = some f

namespace Scan

variable {t : SymbolTable} {units : UnitRegistry} {source passed : List Char} {s scanned : Scan}
  {c : Char} {tail : List Char}

/-- A word stands where it is emitted, and no longer one does. -/
theorem Along.standsIn (h : Along source passed s) (hrest : s.rest = c :: tail)
    {kind : SegmentKind} {text : String}
    (hmove : (Lexicon.of t units).move s c tail = .ok (.emit kind text))
    (hword : Segment.IsWord ⟨kind, text, s.position⟩) :
    Segment.StandsIn t source ⟨kind, text, s.position⟩ := by
  obtain ⟨hfound, hkind⟩ := Lexicon.found_of_emit hmove hword
  rw [h.preceding] at hfound
  have hstands := wordStands_of_wordAt? hfound
  have hlongest := longest_of_wordAt? (sortLabels_longest _) hfound
  have hplace : source = passed ++ c :: tail := by rw [h.parts, hrest]
  refine ⟨?_, ?_, ?_⟩
  · show Stands source s.position text
    rw [h.position, hplace]
    exact (wordStands_iff (begins_of_wordStands hstands).1).1 hstands
  · intro word hhas hlonger hother
    have hne : word ≠ "" := by
      rintro rfl
      exact Nat.not_lt_zero _ hlonger
    have habsent := hlongest word (SymbolTable.mem_words_of_hasWord hhas) hlonger
    change Stands source s.position word at hother
    rw [h.position, hplace, ← wordStands_iff hne, habsent] at hother
    cases hother
  · show kind = .function ↔ _
    rw [hkind, ← Option.isSome_iff_exists]
    change _ ↔ t.functions.contains text = true
    by_cases hcontains : t.functions.contains text = true <;> simp [Lexicon.of, hcontains]

/-- An ended literal is no word. -/
theorem flush_words {P : Segment → Prop} (h : ∀ x ∈ s.segments, x.IsWord → P x) :
    ∀ x ∈ s.flush.segments, x.IsWord → P x := by
  unfold flush
  simp only
  split
  · exact h
  · intro x hx hword
    rcases List.mem_append.1 hx with hx | hx
    · exact h x hx hword
    · obtain rfl := List.mem_singleton.1 hx
      simp [Segment.IsWord] at hword

/-- The words of a run stand where they were found. -/
theorem run_words (hrun : run (.of t units) { rest := source } = .ok scanned) :
    ∀ x ∈ scanned.segments, x.IsWord → x.StandsIn t source := by
  obtain ⟨⟨_, -, hwords⟩, -⟩ := run_preserves
    (P := fun s => ∃ passed, Along source passed s
      ∧ ∀ x ∈ s.segments, x.IsWord → x.StandsIn t source)
    (fun s c tail move hrest hmove ⟨passed, hs, hsegments⟩ => by
      obtain ⟨passed', hpassed⟩ := hs.apply hrest hmove
      refine ⟨passed', hpassed, ?_⟩
      -- Only an emitted segment is new; an ended literal is no word.
      cases move with
      | keep => exact hsegments
      | skip => exact flush_words hsegments
      | emit kind text =>
          intro x hx hword
          rcases List.mem_append.1 hx with hx | hx
          · exact flush_words hsegments x hx hword
          · obtain rfl := List.mem_singleton.1 hx
            exact hs.standsIn hrest hmove hword)
    rfl ⟨[], .nothing source, by simp⟩ hrun
  exact hwords

end Scan

namespace Segment

/-- Whatever the symbols and the units, every function and every operator of
more than one character among the segments of a source stands at its place,
nothing longer that is searched for stands there, and it is a function exactly
if there is one of its name. -/
theorem ofSource_words (symbols : SymbolTable) (units : UnitRegistry) (limits : Limits)
    (source : String) (segments : List Segment)
    (h : Segment.ofSource? (.of symbols units) limits source = .ok segments) :
    ∀ x ∈ segments, x.kind = .function ∨ x.kind = .operator ∧ 1 < x.text.length →
      x.StandsIn symbols source.toList := by
  obtain ⟨scanned, hrun, rfl⟩ := run_of_ofSource h
  exact Scan.flush_words (Scan.run_words hrun)

/-- A table of two functions, one name of which begins the other, and an
operator that goes on with the name of a function. -/
def overlapping : SymbolTable where
  functions := .ofList
    [{ name := "rgb", implementation := fun _ _ => pure (.text "") },
     { name := "rgb-icc", implementation := fun _ _ => pure (.text "") }]
  operators := .ofList
    [{ symbol := "-icc", precedence := 1, formula := fun x _ => .ok x }]

/-- The segments of `rgb-icc(1) -icc rgb (2)`. -/
def overlappingSegments : List Segment :=
  [⟨.function, "rgb-icc", 0⟩, ⟨.leftParen, "(", 7⟩, ⟨.literal, "1", 8⟩, ⟨.rightParen, ")", 9⟩,
   ⟨.operator, "-icc", 11⟩, ⟨.function, "rgb", 16⟩, ⟨.leftParen, "(", 20⟩, ⟨.literal, "2", 21⟩,
   ⟨.rightParen, ")", 22⟩]

/-- A name wins over a name that begins it, and an operator is found where no
name stands. -/
theorem ofSource_words_overlapping :
    Segment.ofSource? (.of overlapping ({} : Config).units) .standard "rgb-icc(1) -icc rgb (2)"
        = .ok overlappingSegments
      ∧ StandsIn overlapping "rgb-icc(1) -icc rgb (2)".toList ⟨.function, "rgb-icc", 0⟩
      ∧ StandsIn overlapping "rgb-icc(1) -icc rgb (2)".toList ⟨.operator, "-icc", 11⟩ := by
  have hsegments : Segment.ofSource? (.of overlapping ({} : Config).units) .standard
      "rgb-icc(1) -icc rgb (2)" = .ok overlappingSegments := by
    decide +kernel
  have hwords := ofSource_words _ _ _ _ _ hsegments
  exact ⟨hsegments, hwords _ (by decide) (by decide), hwords _ (by decide) (by decide)⟩

end Segment

end UnitCalc
