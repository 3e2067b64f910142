/-
The moves of a scan.

A scan goes over its source move by move, and two things are said of that here:
how a run follows its moves, for every table, and which move comes at which
character, for the standard one.

# Runs

`Scan.run_move` takes a run one move on, `Scan.run_fault` ends it where a move
fails, and `Scan.run_preserves` is the induction that goes with them: what
every move preserves holds at the end of the source. It is on the length of
what is left, since a move that emits a word passes all of the word. Nearly
all that is known of whole runs comes from it with an invariant in the place
of `P` (`Proofs/Scan/Growing`, `Proofs/Scan/Cover`, `Proofs/Scan/Words`).

# The standard table

The same three questions come first at every character, and by the standard
table they have short answers: an argument takes a character only if it makes
the argument a number (`Scan.argumentTakes_standard`), a word stands only
where a letter does and none stands inside of a word (`wordAt?_none`), and an
operator is part of a literal only as a sign, as the sign of an exponent or as
a unit. What remains is one lemma for each kind of move, which
`Proofs/Scan/Literal` and `Proofs/Scan/Passing` put together to operands and
the segments between them.
-/
import UnitCalc.Proofs.Quantity.Reading
import UnitCalc.Segment.Scan

namespace UnitCalc

open Text

variable {units : UnitRegistry} {s : Scan} {c : Char} {tail : List Char}

-- ================================================================ the run

theorem Scan.run_nil {lexicon : Lexicon} (h : s.rest = []) : run lexicon s = .ok s := by
  rw [run.eq_def]
  split
  · rfl
  · next hrest => rw [h] at hrest; cases hrest

/-- A run goes on behind its first move. -/
theorem Scan.run_move {lexicon : Lexicon} {move : Move} (h : s.rest = c :: tail)
    (hmove : lexicon.move s c tail = .ok move) :
    run lexicon s = run lexicon (s.apply lexicon.symbols c tail move) := by
  rw [run.eq_def]
  split
  · next hrest => rw [h] at hrest; cases hrest
  · next c' tail' hrest =>
      rw [h] at hrest
      obtain ⟨rfl, rfl⟩ := List.cons.inj hrest
      rw [hmove]

/-- A run ends with the fault of its first move. -/
theorem Scan.run_fault {lexicon : Lexicon} {fault : Fault} (h : s.rest = c :: tail)
    (hmove : lexicon.move s c tail = .error fault) : run lexicon s = .error fault := by
  rw [run.eq_def]
  split
  · next hrest => rw [h] at hrest; cases hrest
  · next c' tail' hrest =>
      rw [h] at hrest
      obtain ⟨rfl, rfl⟩ := List.cons.inj hrest
      rw [hmove]

/-- What every move preserves holds at the end of a run, where nothing is
left of the source. -/
theorem Scan.run_preserves {lexicon : Lexicon} {P : Scan → Prop}
    (hstep : ∀ s c tail move, s.rest = c :: tail → lexicon.move s c tail = .ok move → P s →
      P (s.apply lexicon.symbols c tail move)) {scanned : Scan} :
    ∀ {rest : List Char} {s : Scan}, s.rest = rest → P s → run lexicon s = .ok scanned →
      P scanned ∧ scanned.rest = [] := by
  intro rest
  -- A segment takes several characters at once, so the next rest is shorter but is not the tail.
  induction hlength : rest.length using Nat.strongRecOn generalizing rest with
  | ind length ih =>
      intro s hrest hs hrun
      cases rest with
      | nil =>
          rw [run_nil hrest] at hrun
          obtain rfl := Except.ok.inj hrun
          exact ⟨hs, hrest⟩
      | cons c tail =>
          cases hmove : lexicon.move s c tail with
          | error fault =>
              rw [run_fault hrest hmove] at hrun
              cases hrun
          | ok move =>
              rw [run_move hrest hmove] at hrun
              have hshorter := s.rest_apply_lt lexicon.symbols c tail move
              rw [hlength] at hshorter
              exact ih _ hshorter rfl rfl (hstep s c tail move hrest hmove hs) hrun

-- ================================================================== words

/-- The words of the standard table are the names of its functions. -/
theorem standard_words :
    SymbolTable.standard.words = ["floor", "round", "ceil", "rand", "abs", "max", "min"] :=
  rfl

/-- No word stands where no letter does, and none inside of a word. -/
theorem wordAt?_none {preceding : Option Char} {words : List String}
    (hwords : ∀ word ∈ words, ∃ first more, word.toList = first :: more
      ∧ isWordStart first = true)
    (h : isWordStart c = false ∨ preceding.any isWordPart = true) :
    wordAt? preceding (c :: tail) words = .ok none := by
  induction words with
  | nil => rfl
  | cons word words ih =>
      obtain ⟨first, more, hletters, hfirst⟩ := hwords word List.mem_cons_self
      -- A word stands here only if it begins with this character and is fresh; one of the two
      -- fails.
      have hstands : wordStands preceding (c :: tail) word = .ok false := by
        unfold wordStands
        simp only [hletters, List.isPrefixOf_cons_cons]
        by_cases hc : first = c
        · subst hc
          have hpart : preceding.any isWordPart = true := by
            rcases h with h | h
            · rw [hfirst] at h
              cases h
            · exact h
          simp [hfirst, hpart]
        · simp [hc]
      have hrest := ih fun w hw => hwords w (List.mem_cons_of_mem word hw)
      rw [wordAt?, hstands]
      exact hrest

theorem standard_words_start : ∀ word ∈ SymbolTable.standard.words,
    ∃ first more, word.toList = first :: more ∧ isWordStart first = true := by
  rw [standard_words]
  intro word hword
  simp only [List.mem_cons, List.not_mem_nil, or_false] at hword
  rcases hword with rfl | rfl | rfl | rfl | rfl | rfl | rfl <;> exact ⟨_, _, rfl, by decide⟩

/-- The built-in functions have short names of letters and take plain
numbers. -/
theorem standard_function {function : FunctionSymbol} (hf : function ∈ Numeric.functions) :
    (∃ first more, function.name.toList = first :: more ∧ first ∈ ['r', 'a', 'f', 'c', 'm'])
      ∧ SymbolTable.standard.functions.get? function.name = some function
      ∧ ∀ p ∈ function.parameters, p.type = Parameter.numeric := by
  unfold Numeric.functions at hf
  simp only [List.mem_cons, List.not_mem_nil, or_false] at hf
  rcases hf with rfl | rfl | rfl | rfl | rfl | rfl | rfl <;>
    exact ⟨⟨_, _, rfl, by decide⟩, rfl, by decide⟩

/-- The standard operators are single characters. -/
theorem standard_operator {operator : OperatorSymbol}
    (h : SymbolTable.standard.operators.get? operator.symbol = some operator) :
    ∃ c, operator.symbol = String.singleton c ∧ c ∈ ['+', '-', '*', '/', '%']
      ∧ SymbolTable.standard.operatorOf? c = some operator := by
  have hmem : operator ∈ OperatorSymbol.standard := List.mem_of_find?_eq_some h
  unfold OperatorSymbol.standard at hmem
  simp only [List.mem_cons, List.not_mem_nil, or_false] at hmem
  rcases hmem with rfl | rfl | rfl | rfl | rfl
  · exact ⟨'+', rfl, by decide, rfl⟩
  · exact ⟨'-', rfl, by decide, rfl⟩
  · exact ⟨'*', rfl, by decide, rfl⟩
  · exact ⟨'/', rfl, by decide, rfl⟩
  · exact ⟨'%', rfl, by decide, rfl⟩

/-- The name of a function stands in front of its parenthesis. -/
theorem wordAt?_function {function : FunctionSymbol} (hf : function ∈ Numeric.functions)
    {preceding : Option Char} (hpreceding : preceding.any isWordPart = false) :
    wordAt? preceding (function.name.toList ++ '(' :: tail) SymbolTable.standard.words
      = .ok (some function.name) := by
  rw [standard_words]
  unfold Numeric.functions at hf
  simp only [List.mem_cons, List.not_mem_nil, or_false] at hf
  rcases hf with rfl | rfl | rfl | rfl | rfl | rfl | rfl <;>
    simp [wordAt?, wordStands, endsWord, hpreceding, bind, Except.bind, pure, Except.pure]

-- ============================================================== arguments

/-- A call whose arguments are read as numbers only. -/
def Frame.Settled (frame : Frame) : Prop :=
  1 ≤ frame.depth ∧ ∀ p ∈ frame.function.parameters, p.type = Parameter.numeric

/-- Numeric parameters take numbers. -/
theorem acceptedBy_standard {text : String} {parameters : List Parameter}
    (h : ∀ p ∈ parameters, p.type = Parameter.numeric) :
    acceptedBy .standard (.text text) parameters
      = .ok (!parameters.isEmpty && Quantity.isNumberText text.toList) := by
  induction parameters with
  | nil => rfl
  | cons p parameters ih =>
      have hvalidator : SymbolTable.standard.validators.get? p.type = some .numeric := by
        rw [h p List.mem_cons_self]
        rfl
      have hrest := ih fun q hq => h q (List.mem_cons_of_mem p hq)
      rw [acceptedBy, hvalidator]
      simp only [Validator.numeric, Value.isNumeric, bind, Except.bind, pure, Except.pure]
      cases hnumber : Quantity.isNumberText text.toList with
      | true => rfl
      | false =>
          rw [hnumber, Bool.and_false] at hrest
          simp [hrest]

/-- An argument takes a character only if that makes it a number. -/
theorem Scan.argumentTakes_standard (hs : ∀ frame ∈ s.frames, frame.Settled) (c : Char) :
    ∃ takes, s.argumentTakes .standard c = .ok takes
      ∧ (takes = true → Quantity.isNumberText (s.buffer ++ [c]) = true) := by
  unfold argumentTakes
  cases hframe : s.argumentFrame? with
  | none => exact ⟨false, rfl, by simp⟩
  | some frame =>
      have hmem : frame ∈ s.frames := by
        unfold argumentFrame? at hframe
        rw [Option.filter_eq_some_iff] at hframe
        exact List.mem_of_head? hframe.1
      have hparameters : ∀ p ∈ frame.function.parameters.drop frame.commas,
          p.type = Parameter.numeric :=
        fun p hp => (hs frame hmem).2 p (List.mem_of_mem_drop hp)
      refine ⟨_, acceptedBy_standard hparameters, ?_⟩
      rw [Bool.and_eq_true, String.toList_ofList]
      exact And.right

/-- What can neither be in a number nor behind one is not taken. -/
theorem Scan.argumentTakes_false (hs : ∀ frame ∈ s.frames, frame.Settled)
    (hblank : isBlank c = false) (hdigit : isDigit c = false) (hpoint : c ≠ '.') :
    s.argumentTakes .standard c = .ok false := by
  obtain ⟨takes, htakes, hnumber⟩ := s.argumentTakes_standard hs c
  -- If it were taken it would end a number, and it is nothing that can.
  cases takes with
  | false => exact htakes
  | true =>
      rcases isNumberText_snoc (hnumber rfl) with h | h | h
      · rw [hblank] at h
        cases h
      · rw [hdigit] at h
        cases h
      · exact absurd h hpoint

-- ================================================================== moves

/-- Parentheses and commas are emitted at once. -/
theorem move_structural {lexicon : Lexicon} {kind : SegmentKind} (h : structural? c = some kind) :
    lexicon.move s c tail = .ok (.emit kind (String.singleton c)) := by
  unfold Lexicon.move
  rw [h]

/-- A character of a literal is kept: inside of a word or where no word can
stand, and if it is an operator, as part of a number. -/
theorem move_keep (hs : ∀ frame ∈ s.frames, frame.Settled) (hc : structural? c = none)
    (hword : isWordStart c = false ∨ s.preceding.any isWordPart = true)
    (hgap : isGap c = false)
    (hkept : (SymbolTable.standard.operatorOf? c).all (fun operator =>
      s.isSign operator tail || s.isExponentSign c tail || s.isUnitSuffix units c tail) = true) :
    (Lexicon.of .standard units).move s c tail = .ok .keep := by
  -- The argument may take the character or not; it is kept either way.
  obtain ⟨takes, htakes, -⟩ := s.argumentTakes_standard hs c
  have hnone : wordAt? s.preceding (c :: tail) SymbolTable.standard.words = .ok none :=
    wordAt?_none standard_words_start hword
  unfold Lexicon.move Lexicon.of
  simp only [hc, htakes, hnone, bind, Except.bind, pure, Except.pure, hgap, Bool.false_eq_true,
    ↓reduceIte]
  cases takes with
  | true => rfl
  | false =>
      cases hoperator : SymbolTable.standard.operatorOf? c with
      | none => rfl
      | some operator =>
          rw [hoperator, Option.all_some] at hkept
          simp [hkept]

/-- A gap is skipped, unless it is kept behind a number. -/
theorem move_space (units : UnitRegistry) (tail : List Char)
    (hs : ∀ frame ∈ s.frames, frame.Settled) :
    (Lexicon.of .standard units).move s ' ' tail = .ok .skip
      ∨ Quantity.isNumberText (s.buffer ++ [' ']) = true
        ∧ (Lexicon.of .standard units).move s ' ' tail = .ok .keep := by
  obtain ⟨takes, htakes, hnumber⟩ := s.argumentTakes_standard hs ' '
  have hnone : wordAt? s.preceding (' ' :: tail) SymbolTable.standard.words = .ok none :=
    wordAt?_none standard_words_start (Or.inl (by decide))
  have hoperator : SymbolTable.standard.operatorOf? ' ' = none := rfl
  have hstructural : structural? ' ' = none := rfl
  have hgap : isGap ' ' = true := rfl
  unfold Lexicon.move Lexicon.of
  simp only [hstructural, htakes, hnone, hoperator, hgap, bind, Except.bind, pure, Except.pure,
    ↓reduceIte]
  cases takes with
  | true => exact Or.inr ⟨hnumber rfl, rfl⟩
  | false => exact Or.inl rfl

/-- An operator that is no part of a literal is emitted. -/
theorem move_operator (hs : ∀ frame ∈ s.frames, frame.Settled)
    (hc : c ∈ ['+', '-', '*', '/', '%']) {operator : OperatorSymbol}
    (hoperator : SymbolTable.standard.operatorOf? c = some operator)
    (hsign : s.isSign operator tail = false) (hexponent : s.isExponentSign c tail = false)
    (hunit : s.isUnitSuffix units c tail = false) :
    (Lexicon.of .standard units).move s c tail
      = .ok (.emit .operator (String.singleton c)) := by
  have hall : ∀ d ∈ ['+', '-', '*', '/', '%'], structural? d = none ∧ isWordStart d = false
      ∧ isBlank d = false ∧ isDigit d = false ∧ d ≠ '.' := forall_mem_of_all (by decide)
  obtain ⟨hstructural, hstart, hblank, hdigit, hpoint⟩ := hall c hc
  have hnone : wordAt? s.preceding (c :: tail) SymbolTable.standard.words = .ok none :=
    wordAt?_none standard_words_start (Or.inl hstart)
  unfold Lexicon.move Lexicon.of
  simp only [hstructural, Scan.argumentTakes_false hs hblank hdigit hpoint, hnone, hoperator,
    hsign, hexponent, hunit, bind, Except.bind, pure, Except.pure, Bool.false_eq_true, ↓reduceIte,
    Bool.or_self]

/-- The name of a function is emitted in front of its parenthesis. -/
theorem move_function {function : FunctionSymbol} (hf : function ∈ Numeric.functions)
    (hs : ∀ frame ∈ s.frames, frame.Settled) (hpreceding : s.preceding.any isWordPart = false)
    {more : List Char} (hrest : c :: tail = function.name.toList ++ '(' :: more) :
    (Lexicon.of .standard units).move s c tail = .ok (.emit .function function.name) := by
  have hword : wordAt? s.preceding (c :: tail) SymbolTable.standard.words
      = .ok (some function.name) := by
    rw [hrest]
    exact wordAt?_function hf hpreceding
  obtain ⟨⟨first, letters, hname, hfirst⟩, hget, -⟩ := standard_function hf
  rw [hname, List.cons_append] at hrest
  obtain ⟨rfl, -⟩ := List.cons.inj hrest
  have hall : ∀ d ∈ ['r', 'a', 'f', 'c', 'm'], structural? d = none
      ∧ isBlank d = false ∧ isDigit d = false ∧ d ≠ '.' := forall_mem_of_all (by decide)
  obtain ⟨hstructural, hblank, hdigit, hpoint⟩ := hall _ hfirst
  have hknown : SymbolTable.standard.functions.contains function.name = true := by
    unfold Registry.contains
    rw [hget]
    rfl
  unfold Lexicon.move Lexicon.of
  simp only [hstructural, Scan.argumentTakes_false hs hblank hdigit hpoint, hword, hknown, bind,
    Except.bind, pure, Except.pure, Bool.false_eq_true, ↓reduceIte]

end UnitCalc
