/-
Texts as arguments.

In a call of texts, by a table whose test of texts accepts everything, the
argument takes every character but parentheses and commas, before a word, an
operator or a gap is looked for. So a text is collected whole
(`Scan.run_collecting`), and the call is cut into its name, its parentheses,
its commas and one literal for each text (`Segment.ofSource_callOfTexts`).

# The name

Only the name at the beginning is looked for among the words of the table. It
is found because the longest words are tried first, and a longer one that
stood there would contain the parenthesis (`Unstructured.length_le`). This is
why the symbols of the table may have no structural characters in them, and
the only thing it is needed for.

# The arguments

Collecting is by induction on the text and cutting by induction on the texts,
from one place where an argument begins to the next (`Scan.Begins`). The calls
around the position never change but for their commas, since whatever could
change them is not looked for. `Proofs/Evaluation/Handing` goes on from the
segments to what the implementation is handed.
-/
import UnitCalc.Proofs.Scan.InCall

namespace UnitCalc

open Text

-- ==================================================================== words

/-- A text without parentheses and commas. -/
def Unstructured (text : String) : Prop :=
  ∀ c ∈ text.toList, structural? c = none

/-- The characters are looked at one by one. -/
instance (text : String) : Decidable (Unstructured text) :=
  List.decidableBAll (fun c => structural? c = none) text.toList

/-- A table without parentheses and commas in its symbols. -/
structure SymbolTable.Unstructured (t : SymbolTable) : Prop where
  functions : ∀ name ∈ t.functions.keys, UnitCalc.Unstructured name
  operators : ∀ symbol ∈ t.operators.keys, UnitCalc.Unstructured symbol

theorem SymbolTable.Unstructured.word {t : SymbolTable} (h : t.Unstructured) :
    ∀ word ∈ t.words, UnitCalc.Unstructured word := by
  intro word hword
  rcases mem_words hword with hname | ⟨hsymbol, -⟩
  · exact h.functions word hname
  · exact h.operators word hsymbol

/-- Where a text goes on with a parenthesis, no word that it begins with is
longer. -/
theorem Unstructured.length_le {word : String} {name more : List Char} (h : Unstructured word)
    (hbegins : word.toList <+: name ++ '(' :: more) : word.length ≤ name.length := by
  by_contra hlonger
  -- Both begin what is there, so the longer one begins with the shorter and the parenthesis.
  have hparen : name ++ ['('] <+: word.toList := by
    refine List.prefix_of_prefix_length_le ((List.prefix_append_right_inj name).2 ?_) hbegins ?_
    · exact List.prefix_append ['('] more
    · rw [List.length_append, List.length_singleton, String.length_toList]
      omega
  have hplain := h '(' (hparen.subset (by simp))
  cases hplain

/-- A word that stands is found, if no longer one does and the longest are tried
first. -/
theorem wordAt?_longest {preceding : Option Char} {rest : List Char} {words : List String}
    {name : String} (hsorted : words.Pairwise fun v w => w.length ≤ v.length)
    (hmem : name ∈ words) (hstands : wordStands preceding rest name = .ok true)
    (hlongest : ∀ word ∈ words, word.toList <+: rest → word.length ≤ name.length) :
    wordAt? preceding rest words = .ok (some name) := by
  induction hsorted with
  | nil => cases hmem
  | @cons word words hword _ ih =>
      by_cases heq : word = name
      · subst heq
        rw [wordAt?, hstands]
        rfl
      · have hlater : name ∈ words := (List.mem_cons.1 hmem).resolve_left (Ne.symm heq)
        -- Another word that began here would be as long, for it is tried first, and so the same.
        have habsent : ¬ word.toList <+: rest := by
          intro hbegins
          have hname := (begins_of_wordStands hstands).2
          have hlength : word.toList.length = name.toList.length := by
            rw [String.length_toList, String.length_toList]
            exact Nat.le_antisymm (hlongest word List.mem_cons_self hbegins) (hword name hlater)
          exact heq (String.toList_inj.1
            ((List.prefix_of_prefix_length_le hbegins hname hlength.le).eq_of_length hlength))
        have hnot : wordStands preceding rest word = .ok false := by
          unfold wordStands
          simp [habsent]
        rw [wordAt?, hnot]
        exact ih hlater fun w hw => hlongest w (List.mem_cons_of_mem word hw)

section Name

variable {t : SymbolTable} {f : FunctionSymbol} {rest : List Char}

/-- The name of a function stands in front of its parenthesis. -/
theorem wordStands_name (hname : f.name ≠ "") :
    wordStands none (f.name.toList ++ '(' :: rest) f.name = .ok true := by
  obtain ⟨first, letters, hletters⟩ :=
    List.exists_cons_of_ne_nil (mt String.toList_eq_nil_iff.1 hname)
  unfold wordStands
  simp [hletters, endsWord]

/-- There it is found, if the symbols of the table have no parentheses. -/
theorem SymbolTable.Unstructured.move_name (ht : t.Unstructured)
    (hf : t.functions.get? f.name = some f) (hname : f.name ≠ "") (units : UnitRegistry)
    {first : Char} {letters : List Char} (hletters : f.name.toList = first :: letters) :
    (Lexicon.of t units).move { rest := f.name.toList ++ '(' :: rest } first
      (letters ++ '(' :: rest) = .ok (.emit .function f.name) := by
  have hkey : f.name ∈ t.functions.keys := List.mem_map_of_mem (List.mem_of_find?_eq_some hf)
  have hword : f.name ∈ t.words := mem_sortLabels.2 (List.mem_append_left _ hkey)
  have hfound : wordAt? none (first :: (letters ++ '(' :: rest)) t.words = .ok (some f.name) := by
    rw [← List.cons_append, ← hletters]
    refine wordAt?_longest (sortLabels_longest _) hword (wordStands_name hname) ?_
    intro word hmem hbegins
    rw [← String.length_toList (s := f.name)]
    exact (ht.word word hmem).length_le hbegins
  have hplain : structural? first = none :=
    ht.functions f.name hkey first (by rw [hletters]; exact List.mem_cons_self)
  have hknown : t.functions.contains f.name = true := by
    unfold Registry.contains
    rw [hf]
    rfl
  unfold Lexicon.move Lexicon.of
  simp only [hplain, Scan.argumentTakes, Scan.argumentFrame?, List.head?_nil, Option.filter_none,
    hfound, hknown, bind, Except.bind, pure, Except.pure, Bool.false_eq_true, ↓reduceIte]

end Name

-- =============================================================== collecting

/-- A table whose test of texts accepts every text. -/
def SymbolTable.TakesTexts (t : SymbolTable) : Prop :=
  ∃ validator, t.validators.get? Parameter.string = some validator
    ∧ ∀ text, validator.accepts (.text text) = .ok true

/-- A function whose parameters are all for texts. -/
def FunctionSymbol.OfTexts (f : FunctionSymbol) : Prop :=
  ∀ p ∈ f.parameters, p.type = Parameter.string

/-- A text that can stand as an argument: without parentheses and commas, and
not blank. -/
structure IsPayload (text : String) : Prop where
  plain : Unstructured text
  visible : allBlank text.toList = false

/-- Both parts are tests of the characters. -/
instance (text : String) : Decidable (IsPayload text) :=
  decidable_of_iff (Unstructured text ∧ allBlank text.toList = false)
    ⟨fun ⟨plain, visible⟩ => ⟨plain, visible⟩, fun h => ⟨h.plain, h.visible⟩⟩

/-- A text without the blanks around it. -/
def trimmed (text : String) : String :=
  String.ofList (trim text.toList)

/-- The literal that a text at a position is cut to. -/
def payload (position : Nat) (text : String) : Segment :=
  ⟨.literal, trimmed text, position + (text.toList.length - (trimStart text.toList).length)⟩

namespace Scan

variable {t : SymbolTable} {units : UnitRegistry} {f : FunctionSymbol} {commas : Nat} {s : Scan}
  {rest : List Char}

/-- A scan that has collected some more characters. -/
def collecting (s : Scan) (kept rest : List Char) : Scan :=
  { s with
    position := s.position + kept.length
    preceding := kept.getLast?.or s.preceding
    rest
    buffer := s.buffer ++ kept
    bufferStart := if s.buffer.isEmpty then s.position else s.bufferStart }

/-- The arguments of a call of texts take any character, as long as parameters
are left. -/
theorem argumentTakes_text (ht : t.TakesTexts) (hf : f.OfTexts)
    (hframes : s.frames = [{ function := f, depth := 1, commas }])
    (hcommas : commas < f.parameters.length) (c : Char) :
    s.argumentTakes t c = .ok true := by
  obtain ⟨validator, hvalidator, haccepts⟩ := ht
  have htype : f.parameters[commas].type = Parameter.string := hf _ (List.getElem_mem hcommas)
  unfold argumentTakes argumentFrame?
  rw [hframes]
  simp only [List.head?_cons, Option.filter_some, Nat.le_refl, decide_true, ↓reduceIte]
  rw [List.drop_eq_getElem_cons hcommas, acceptedBy, htype, hvalidator]
  simp only [haccepts, bind, Except.bind, pure, Except.pure, ↓reduceIte]

/-- A text is collected whole. -/
theorem run_collecting (ht : t.TakesTexts) (units : UnitRegistry) (hf : f.OfTexts)
    (hcommas : commas < f.parameters.length) :
    ∀ {kept : List Char} {s : Scan}, kept ≠ [] → (∀ c ∈ kept, structural? c = none) →
      s.frames = [{ function := f, depth := 1, commas }] → s.rest = kept ++ rest →
      run (.of t units) s = run (.of t units) (s.collecting kept rest) := by
  intro kept
  induction kept with
  | nil => exact fun hne => absurd rfl hne
  | cons c kept ih =>
      intro s _ hplain hframes hrest
      have hmove : (Lexicon.of t units).move s c (kept ++ rest) = .ok .keep := by
        have htakes := argumentTakes_text ht hf hframes hcommas c
        unfold Lexicon.move Lexicon.of
        simp only [hplain c List.mem_cons_self, htakes, bind, Except.bind, pure, Except.pure,
          ↓reduceIte]
      rw [run_move hrest hmove]
      cases kept with
      | nil => rfl
      | cons d kept =>
          have hnext := ih (s := s.apply t c (d :: kept ++ rest) .keep) (List.cons_ne_nil d kept)
            (fun e he => hplain e (List.mem_cons_of_mem c he)) hframes rfl
          have hlast : (d :: kept).getLast?.or (some c) = (d :: kept).getLast?.or s.preceding := by
            rw [List.getLast?_cons]
            rfl
          refine hnext.trans (congrArg (run _) ?_)
          simp [collecting, apply, hlast, Nat.add_assoc, Nat.add_comm 1]

/-- Where nothing else was collected, the text becomes a literal. -/
theorem flush_segments_collecting (hbuffer : s.buffer = []) {text : String}
    (hvisible : allBlank text.toList = false) (rest : List Char) :
    (s.collecting text.toList rest).flush.segments
      = s.segments ++ [payload s.position text] := by
  have htrim : (trim text.toList).isEmpty = false := by
    simpa using trim_ne_nil hvisible
  simp [flush, collecting, hbuffer, htrim, payload, trimmed]

-- ================================================================ arguments

/-- A scan where an argument begins, behind some commas of a call. -/
structure Begins (f : FunctionSymbol) (commas : Nat) (s : Scan) : Prop where
  buffer : s.buffer = []
  frames : s.frames = [{ function := f, depth := 1, commas }]

/-- A text that can stand as an argument becomes one. -/
theorem Begins.argument (h : Begins f commas s) (ht : t.TakesTexts) (units : UnitRegistry)
    (hf : f.OfTexts) (hcommas : commas < f.parameters.length) {text : String}
    (htext : IsPayload text) (hrest : s.rest = text.toList ++ rest) :
    ∃ s', run (.of t units) s = run (.of t units) s' ∧ s'.rest = rest
      ∧ s'.frames = s.frames ∧ s'.position = s.position + text.length
      ∧ s'.flush.segments = s.segments ++ [payload s.position text] := by
  have hne : text.toList ≠ [] := by
    intro hempty
    have hvisible := htext.visible
    rw [hempty] at hvisible
    cases hvisible
  refine ⟨s.collecting text.toList rest,
    run_collecting ht units hf hcommas hne htext.plain h.frames hrest, rfl, rfl, ?_,
    flush_segments_collecting h.buffer htext.visible rest⟩
  show s.position + text.toList.length = s.position + text.length
  rw [String.length_toList]

/-- Behind a comma the next argument begins. -/
theorem begins_of_comma (lexicon : Lexicon)
    (hframes : s.frames = [{ function := f, depth := 1, commas }]) (hrest : s.rest = ',' :: rest) :
    ∃ s', run lexicon s = run lexicon s' ∧ s'.rest = rest ∧ Begins f (commas + 1) s'
      ∧ s'.position = s.position + 1
      ∧ s'.segments = s.flush.segments ++ [⟨.comma, ",", s.position⟩] := by
  refine ⟨s.apply lexicon.symbols ',' rest (.emit .comma ","),
    run_move hrest (move_structural rfl), rfl, ⟨rfl, ?_⟩, rfl, rfl⟩
  show framesAfter lexicon.symbols .comma "," s.frames = _
  rw [hframes]
  rfl

end Scan

-- ==================================================================== calls

/-- The segments of some texts with commas between them, from a position on. -/
def payloads (position : Nat) : List String → List Segment
  | [] => []
  | [text] => [payload position text]
  | text :: next :: more =>
    payload position text :: ⟨.comma, ",", position + text.length⟩
      :: payloads (position + text.length + 1) (next :: more)

/-- The arguments of a call of texts are cut into a literal each. -/
theorem Scan.Begins.run {t : SymbolTable} (ht : t.TakesTexts) (units : UnitRegistry)
    {f : FunctionSymbol} (hf : f.OfTexts) :
    ∀ {texts : List String} {commas : Nat} {s : Scan}, texts ≠ [] →
      (∀ text ∈ texts, IsPayload text) → commas + texts.length ≤ f.parameters.length →
      Begins f commas s → s.rest = (",".intercalate texts).toList ++ [')'] →
      ∃ scanned, Scan.run (.of t units) s = .ok scanned
        ∧ scanned.flush.segments = s.segments ++ payloads s.position texts
          ++ [⟨.rightParen, ")", s.position + (",".intercalate texts).length⟩] := by
  intro texts
  induction texts with
  | nil => exact fun hne => absurd rfl hne
  | cons text more ih =>
      intro commas s _ htexts hcommas hs hrest
      have htext := htexts text List.mem_cons_self
      have hplace : commas < f.parameters.length := by
        rw [List.length_cons] at hcommas
        omega
      -- The last text ends at the parenthesis, any other at a comma.
      cases more with
      | nil =>
          rw [String.intercalate_singleton] at hrest ⊢
          obtain ⟨s', hrun, hclose, -, hposition, hsegments⟩ :=
            hs.argument ht units hf hplace htext hrest
          obtain ⟨scanned, hscanned, hfound⟩ := run_close (.of t units) hclose
          refine ⟨scanned, hrun.trans hscanned, ?_⟩
          rw [hfound, hsegments, hposition]
          rfl
      | cons next more =>
          rw [String.intercalate_cons_cons, String.toList_append, String.toList_append,
            List.append_assoc, List.append_assoc] at hrest
          obtain ⟨s1, hrun1, hrest1, hframes1, hposition1, hsegments1⟩ :=
            hs.argument ht units hf hplace htext hrest
          obtain ⟨s2, hrun2, hrest2, hs2, hposition2, hsegments2⟩ :=
            begins_of_comma (.of t units) (hframes1.trans hs.frames) hrest1
          obtain ⟨scanned, hscanned, hfound⟩ := ih (List.cons_ne_nil next more)
            (fun other hother => htexts other (List.mem_cons_of_mem text hother))
            (by rw [List.length_cons] at hcommas; omega) hs2 hrest2
          refine ⟨scanned, hrun1.trans (hrun2.trans hscanned), ?_⟩
          have hcomma : ",".length = 1 := rfl
          rw [hfound, hsegments2, hsegments1, hposition2, hposition1, payloads,
            String.intercalate_cons_cons, String.length_append, String.length_append, hcomma]
          simp [Nat.add_assoc]

/-- A call of some texts. -/
def FunctionSymbol.callOfTexts (f : FunctionSymbol) (texts : List String) : String :=
  f.name ++ "(" ++ ",".intercalate texts ++ ")"

/-- A call of texts is cut into its name, its parentheses, its commas and its
texts. -/
theorem Segment.ofSource_callOfTexts {t : SymbolTable} (ht : t.Unstructured) (htexts : t.TakesTexts)
    (units : UnitRegistry) {limits : Limits} {f : FunctionSymbol}
    (hf : t.functions.get? f.name = some f) (hname : f.name ≠ "") (hparameters : f.OfTexts)
    {texts : List String} (hsome : texts ≠ []) (hpayloads : ∀ text ∈ texts, IsPayload text)
    (hmost : texts.length ≤ f.maxArity)
    (hlength : ((f.callOfTexts texts).length : Int) ≤ limits.expressionLength) :
    ∃ closing, Segment.ofSource? (.of t units) limits (f.callOfTexts texts)
      = .ok (⟨.function, f.name, 0⟩ :: ⟨.leftParen, "(", f.name.length⟩
        :: payloads (f.name.length + 1) texts ++ [⟨.rightParen, ")", closing⟩]) := by
  have hsource : (f.callOfTexts texts).toList
      = f.name.toList ++ '(' :: ((",".intercalate texts).toList ++ [')']) := by
    simp [FunctionSymbol.callOfTexts]
  have hbegins : Scan.Begins f 0 (.opened f ((",".intercalate texts).toList ++ [')'])) :=
    ⟨rfl, rfl⟩
  obtain ⟨scanned, hscanned, hsegments⟩ := Scan.Begins.run htexts units hparameters hsome hpayloads
    (by rwa [Nat.zero_add]) hbegins rfl
  have hrun : Scan.run (.of t units) { rest := (f.callOfTexts texts).toList } = .ok scanned := by
    rw [hsource, Scan.run_opening hf hname fun first letters hletters =>
      ht.move_name hf hname units hletters, hscanned]
  exact ⟨_, (ofSource_of_run hlength hrun).trans (congrArg Except.ok hsegments)⟩

end UnitCalc
