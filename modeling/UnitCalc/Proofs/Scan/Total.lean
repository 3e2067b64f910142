/-
Scans that reach the end.

A table is readable if its functions have names and its tests answer on every
text (`SymbolTable.Readable`). These are the only two things that can go wrong
while a source is cut: a word without characters and a test that raises a
fault. By a readable table every character has a move (`Lexicon.move_total`),
so every source that is short enough is cut into segments
(`Segment.ofSource_answers`).

The functions and operators among the segments are registered, because the
words that are searched for are the symbols of the table
(`Segment.Registered`). This goes along in the same induction, and it is what
keeps a reduction from asking for symbols there are none of
(`Proofs/Parsing/Faults`).
-/
import UnitCalc.Proofs.Error.Answers
import UnitCalc.Proofs.Scan.Moves

namespace UnitCalc

/-- A table whose functions have names and whose tests answer on texts. -/
structure SymbolTable.Readable (t : SymbolTable) : Prop where
  named : ∀ f ∈ t.functions.entries, f.name ≠ ""
  tests : ∀ validator ∈ t.validators.entries, ∀ text,
    ∃ accepted, validator.accepts (.text text) = .ok accepted

theorem standard_validator {validator : Validator}
    (h : validator ∈ SymbolTable.standard.validators.entries) :
    validator = .numeric ∨ validator = .string := by
  have hentries : SymbolTable.standard.validators.entries = [.numeric, .string] := rfl
  rw [hentries] at h
  simpa using h

theorem standard_readable : SymbolTable.standard.Readable where
  named := by
    intro f hf
    obtain ⟨⟨first, more, hname, -⟩, -, -⟩ := standard_function hf
    rintro hempty
    rw [hempty] at hname
    cases hname
  tests := by
    intro validator hvalidator text
    rcases standard_validator hvalidator with rfl | rfl
    · exact ⟨_, rfl⟩
    · exact ⟨_, rfl⟩

-- ================================================================== words

namespace SymbolTable

variable {t : SymbolTable} {word : String}

/-- A word is the name of a function, or the symbol of an operator. -/
theorem mem_words (h : word ∈ t.words) :
    word ∈ t.functions.keys ∨ word ∈ t.operators.keys ∧ 1 < word.length := by
  rw [words, Text.mem_sortLabels, List.mem_append, List.mem_filter] at h
  simpa using h

theorem Readable.word_ne_empty (ht : t.Readable) (h : word ∈ t.words) : word ≠ "" := by
  rcases mem_words h with hname | ⟨-, hlength⟩
  · obtain ⟨f, hf, rfl⟩ := List.mem_map.1 hname
    exact ht.named f hf
  · rintro rfl
    exact absurd hlength (by decide)

end SymbolTable

variable {t : SymbolTable}

theorem wordStands_total {word : String} (h : word ≠ "") (preceding : Option Char)
    (rest : List Char) : ∃ stands, wordStands preceding rest word = .ok stands := by
  unfold wordStands
  cases hletters : word.toList with
  | nil => exact absurd (String.toList_eq_nil_iff.1 hletters) h
  | cons first more =>
      simp only
      split
      · exact ⟨_, rfl⟩
      · exact ⟨_, rfl⟩

theorem wordAt?_total {words : List String} (h : ∀ word ∈ words, word ≠ "")
    (preceding : Option Char) (rest : List Char) :
    ∃ found, wordAt? preceding rest words = .ok found ∧ ∀ word ∈ found, word ∈ words := by
  induction words with
  | nil => exact ⟨none, rfl, by simp⟩
  | cons word words ih =>
      obtain ⟨stands, hstands⟩ := wordStands_total (h word List.mem_cons_self) preceding rest
      obtain ⟨found, hfound, hmem⟩ := ih fun w hw => h w (List.mem_cons_of_mem word hw)
      rw [wordAt?, hstands]
      cases stands with
      | true => exact ⟨some word, rfl, by simp⟩
      | false => exact ⟨found, hfound, fun w hw => List.mem_cons_of_mem word (hmem w hw)⟩

-- ============================================================== arguments

theorem acceptedBy_total (ht : t.Readable) (text : String) (parameters : List Parameter) :
    ∃ accepted, acceptedBy t (.text text) parameters = .ok accepted := by
  induction parameters with
  | nil => exact ⟨false, rfl⟩
  | cons parameter more ih =>
      obtain ⟨later, hlater⟩ := ih
      rw [acceptedBy]
      -- A type without a test accepts nothing; then the parameter may be passed over if it is
      -- optional.
      cases hvalidator : t.validators.get? parameter.type with
      | none =>
          cases hrequired : parameter.isRequired with
          | true => exact ⟨false, by simp [bind, Except.bind, pure, Except.pure]⟩
          | false => exact ⟨later, by simp [hlater, bind, Except.bind, pure, Except.pure]⟩
      | some validator =>
          obtain ⟨accepted, haccepted⟩ :=
            ht.tests validator (List.mem_of_find?_eq_some hvalidator) text
          simp only [haccepted, bind, Except.bind, pure, Except.pure]
          cases accepted with
          | true => exact ⟨true, rfl⟩
          | false =>
              cases hrequired : parameter.isRequired with
              | true => exact ⟨false, by simp⟩
              | false => exact ⟨later, by simpa using hlater⟩

theorem Scan.argumentTakes_total (ht : t.Readable) (s : Scan) (c : Char) :
    ∃ takes, s.argumentTakes t c = .ok takes := by
  unfold argumentTakes
  cases s.argumentFrame? with
  | none => exact ⟨false, rfl⟩
  | some frame => exact acceptedBy_total ht _ _

-- ================================================================== moves

/-- Whether a function or operator is one of a table's. -/
def Segment.Registered (t : SymbolTable) (x : Segment) : Prop :=
  (x.kind = .function → ∃ f, t.functions.get? x.text = some f)
    ∧ (x.kind = .operator → ∃ o, t.operators.get? x.text = some o)

/-- The segments that a move adds are registered. -/
def Move.Registered (t : SymbolTable) : Move → Prop
  | .emit kind text => ∀ position, Segment.Registered t ⟨kind, text, position⟩
  | _ => True

theorem Move.registered_structural {c : Char} {kind : SegmentKind} (h : structural? c = some kind)
    (text : String) : (Move.emit kind text).Registered t := by
  intro position
  have hkind : kind ≠ .function ∧ kind ≠ .operator := by
    unfold structural? at h
    split at h
    · cases h
      exact ⟨by simp, by simp⟩
    · cases h
      exact ⟨by simp, by simp⟩
    · cases h
      exact ⟨by simp, by simp⟩
    · cases h
  exact ⟨fun hfunction => absurd hfunction hkind.1, fun hoperator => absurd hoperator hkind.2⟩

/-- A word is emitted as what it is. -/
theorem Move.registered_word {word : String} (h : word ∈ t.words) :
    (Move.emit (if t.functions.contains word then .function else .operator) word).Registered t := by
  intro position
  by_cases hfunction : t.functions.contains word = true
  · rw [if_pos hfunction]
    exact ⟨fun _ => Option.isSome_iff_exists.1 hfunction, by simp⟩
  · rw [if_neg hfunction]
    refine ⟨by simp, fun _ => ?_⟩
    rcases SymbolTable.mem_words h with hname | ⟨hsymbol, -⟩
    · obtain ⟨f, hf⟩ := Registry.mem_keys.1 hname
      refine absurd ?_ hfunction
      rw [Registry.contains, hf]
      rfl
    · exact Registry.mem_keys.1 hsymbol

/-- Every character has a move. -/
theorem Lexicon.move_total (ht : t.Readable) (units : UnitRegistry) (s : Scan) (c : Char)
    (tail : List Char) :
    ∃ move, (Lexicon.of t units).move s c tail = .ok move ∧ move.Registered t := by
  -- The cases are the questions of a move, in the order in which they are asked.
  cases hstructural : structural? c with
  | some kind => exact ⟨_, move_structural hstructural, Move.registered_structural hstructural _⟩
  | none =>
      obtain ⟨takes, htakes⟩ := s.argumentTakes_total ht c
      obtain ⟨found, hfound, hwords⟩ :=
        wordAt?_total (fun word => ht.word_ne_empty) s.preceding (c :: tail)
      unfold move Lexicon.of
      simp only [hstructural, htakes, hfound, bind, Except.bind, pure, Except.pure]
      cases takes with
      | true => exact ⟨.keep, rfl, trivial⟩
      | false =>
          cases found with
          | some word => exact ⟨_, rfl, Move.registered_word (hwords word rfl)⟩
          | none =>
              cases hoperator : t.operatorOf? c with
              | none =>
                  cases hgap : Text.isGap c with
                  | true => exact ⟨.skip, rfl, trivial⟩
                  | false => exact ⟨.keep, rfl, trivial⟩
              | some operator =>
                  simp only [Bool.false_eq_true, ↓reduceIte]
                  split
                  · exact ⟨.keep, rfl, trivial⟩
                  · exact ⟨_, rfl, fun _ => ⟨by simp, fun _ => ⟨operator, hoperator⟩⟩⟩

-- =================================================================== runs

theorem Scan.flush_registered {s : Scan} (h : ∀ x ∈ s.segments, x.Registered t) :
    ∀ x ∈ s.flush.segments, x.Registered t := by
  intro x hx
  unfold flush at hx
  simp only at hx
  split at hx
  · exact h x hx
  · rcases List.mem_append.1 hx with hx | hx
    · exact h x hx
    · obtain rfl := List.mem_singleton.1 hx
      exact ⟨by simp, by simp⟩

theorem Scan.apply_registered {s : Scan} {c : Char} {tail : List Char} {move : Move}
    (h : ∀ x ∈ s.segments, x.Registered t) (hmove : move.Registered t) :
    ∀ x ∈ (s.apply t c tail move).segments, x.Registered t := by
  cases move with
  | keep => exact h
  | skip => exact flush_registered h
  | emit kind text =>
      intro x hx
      rcases List.mem_append.1 hx with hx | hx
      · exact flush_registered h x hx
      · obtain rfl := List.mem_singleton.1 hx
        exact hmove s.position

/-- A scan by a readable table reaches the end, with registered segments. -/
theorem Scan.run_total (ht : t.Readable) (units : UnitRegistry) :
    ∀ (rest : List Char) (s : Scan), s.rest = rest → (∀ x ∈ s.segments, x.Registered t) →
    ∃ scanned, run (.of t units) s = .ok scanned ∧ ∀ x ∈ scanned.segments, x.Registered t := by
  intro rest
  induction hlength : rest.length using Nat.strongRecOn generalizing rest with
  | ind length ih =>
      intro s hrest hsegments
      cases rest with
      | nil => exact ⟨s, run_nil hrest, hsegments⟩
      | cons c tail =>
          -- There is a move, so the run goes on behind it and only the rest matters.
          obtain ⟨move, hmove, hregistered⟩ := Lexicon.move_total ht units s c tail
          rw [run_move hrest hmove]
          have hshorter := s.rest_apply_lt t c tail move
          rw [hlength] at hshorter
          exact ih _ hshorter _ rfl _ rfl (apply_registered hsegments hregistered)

/-- By a readable table a source is cut into registered segments, unless it
is too long. -/
theorem Segment.ofSource_answers (ht : t.Readable) (units : UnitRegistry) (limits : Limits)
    (source : String) :
    Answers (· = .limitExceeded) (fun segments => ∀ x ∈ segments, x.Registered t)
      (Segment.ofSource? (.of t units) limits source) := by
  obtain ⟨scanned, hscanned, hsegments⟩ := Scan.run_total ht units source.toList
    { rest := source.toList } rfl (by simp)
  unfold ofSource? Limits.checkLength Limits.check
  split
  · exact .reported rfl
  · rw [hscanned]
    exact .ok (Scan.flush_registered hsegments)

end UnitCalc
