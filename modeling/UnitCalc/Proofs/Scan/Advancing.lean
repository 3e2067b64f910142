/-
How two scans that run abreast stand to each other.

They are in one of three situations (`Scan.Follows`). Either both collect the
same literal (`Scan.Reads`); or the scan outside of the call has ended a
number at a gap, while the one inside still collects it (`Scan.Holds`); or a
function has been named, and neither reads an argument before its parenthesis
comes (`Scan.Names`). The gap behind a number is the only place where they
fall out of step, since only there does an argument take what would be
skipped.

Every move leads to one of the three again, or to where the two part for good
(`Scan.Advances`), and there is one lemma for each situation:

* From the first, a gap behind a number leads to the second, a word to the
  third, and everything else back to the first.
* From the second, a blank changes nothing; an operator or a word ends the
  literal inside, which is trimmed to the number that was ended outside, so the
  scans are in step again. Whatever else comes begins a literal outside and goes
  on with the number inside, and they part (`Scan.Parted`).
* From the third there is no way back, because without parentheses in the text
  the function has no call.

An operator that could be a unit is left aside where it stands behind a blank
that is no gap (`Detached`). Outside, the number has ended before and it is an
operator. Inside, the blank is collected with the number, and what stands
behind it and ends the word is taken for the unit.

`Proofs/Scan/InCall` follows these steps to the end of the text.
-/
import UnitCalc.Proofs.Scan.Abreast
import UnitCalc.Proofs.Segment.Followed

namespace UnitCalc

open Text

-- ================================================================ situations

namespace Scan

variable {units : UnitRegistry} {function : FunctionSymbol} {source : List Char} {a b : Scan}
  {c : Char} {tail : List Char} {found : Option String}

/-- The end of a literal where no number is pending. -/
theorem not_juxtaposed_flush (happart : ¬ Juxtaposed a.segments) (hfree : ¬ Pending a.segments) :
    ¬ Juxtaposed a.flush.segments := by
  unfold flush
  simp only
  split
  · exact happart
  · intro hfollowed
    rcases followed_concat.1 hfollowed with hbefore | ⟨hpending, -⟩
    · exact happart hbefore
    · exact hfree hpending

/-- The literal that ends is no number if what was collected is none. -/
theorem not_pending_flush (hfree : ¬ Pending a.segments)
    (hnumber : Quantity.isNumberText a.buffer = false) : ¬ Pending a.flush.segments := by
  unfold flush
  simp only
  split
  · exact hfree
  · intro hpending
    have htext := (pending_concat.1 hpending).2.1
    rw [String.toList_ofList, isNumberText_trim, hnumber] at htext
    cases htext

theorem unnamed_flush (h : ∀ z ∈ a.segments, z.kind ≠ .function) :
    ∀ z ∈ a.flush.segments, z.kind ≠ .function := by
  unfold flush
  simp only
  split
  · exact h
  · exact List.forall_mem_append.2 ⟨h, by simp⟩

/-- Both collect the same literal. -/
structure Reads (function : FunctionSymbol) (a b : Scan) : Prop where
  same : Alike function.name a b
  outside : a.frames = []
  inside : b.frames = [{ function, depth := 1 }]
  unnamed : ∀ z ∈ a.segments, z.kind ≠ .function
  apart : ¬ Juxtaposed a.segments
  free : ¬ Pending a.segments

/-- The first has ended a number, and the second still collects it. -/
structure Holds (function : FunctionSymbol) (a b : Scan) : Prop where
  outside : a.frames = []
  inside : b.frames = [{ function, depth := 1 }]
  apart : ¬ Juxtaposed a.segments
  pending : Pending a.segments
  blank : allBlank a.buffer = true
  number : Quantity.isNumberText b.buffer = true
  flushed : b.flush.segments = inCall function.name a.segments
  last : ∃ d, isBlank d = true ∧ a.preceding = some d ∧ b.buffer.getLast? = some d

/-- A function has been named, and neither reads an argument. -/
structure Names (function : FunctionSymbol) (a b : Scan) : Prop where
  same : Alike function.name a b
  outside : a.argumentFrame? = none
  inside : b.argumentFrame? = none
  named : ∃ z ∈ a.segments, z.kind = .function
  apart : ¬ Juxtaposed a.segments

/-- How two scans can stand to each other, the second of which reads the text
as the argument of a call. -/
inductive Follows (function : FunctionSymbol) (a b : Scan) : Prop
  | reads (situation : Reads function a b)
  | holds (situation : Holds function a b)
  | names (situation : Names function a b)

/-- Where no number is juxtaposed, both end the same literal. -/
theorem Follows.flush (h : Follows function a b) :
    b.flush.segments = inCall function.name a.flush.segments
      ∧ ¬ Juxtaposed a.flush.segments := by
  cases h with
  | reads h => exact ⟨h.same.flush, not_juxtaposed_flush h.apart h.free⟩
  | holds h =>
      rw [flush_segments_of_allBlank h.blank]
      exact ⟨h.flushed, h.apart⟩
  | names h =>
      obtain ⟨z, hz, hkind⟩ := h.named
      exact ⟨h.same.flush, not_juxtaposed_flush h.apart fun hpending =>
        hpending.unnamed z hz hkind⟩

/-- Two scans that have parted: the first has ended a number and begun another
literal, with which the second goes on with the number. -/
def Parted (name : String) (a b : Scan) : Prop :=
  ∃ before x, a.segments = before ++ [x] ∧ Exposed before x ∧ allBlank a.buffer = false
    ∧ b.segments = inCall name before ∧ allBlank b.buffer = false
    ∧ x.text.length < (trim b.buffer).length

/-- Two scans have moves at the next character, and these lead to one of the
situations or to where the scans part. -/
def Advances (units : UnitRegistry) (source : List Char) (function : FunctionSymbol) (a b : Scan)
    (c : Char) (tail : List Char) : Prop :=
  ∃ m m', (Lexicon.of .standard units).move a c tail = .ok m
    ∧ (Lexicon.of .standard units).move b c (tail ++ [')']) = .ok m'
    ∧ (Abreast function.name source (a.apply .standard c tail m)
          (b.apply .standard c (tail ++ [')']) m')
        ∧ Follows function (a.apply .standard c tail m) (b.apply .standard c (tail ++ [')']) m')
      ∨ Parted function.name (a.apply .standard c tail m) (b.apply .standard c (tail ++ [')']) m')
      ∨ Detached units source (a.apply .standard c tail m).segments)

-- ==================================================================== moves

/-- Behind the name of a function no argument is read. -/
theorem argumentFrame?_of_word {word : String} (hword : word ∈ SymbolTable.standard.words)
    (s : Scan) (c : Char) (tail : List Char) :
    (s.apply .standard c tail (.emit .function word)).argumentFrame? = none := by
  obtain ⟨f, hf⟩ : ∃ f, SymbolTable.standard.functions.get? word = some f := by
    rw [standard_words] at hword
    simp only [List.mem_cons, List.not_mem_nil, or_false] at hword
    rcases hword with rfl | rfl | rfl | rfl | rfl | rfl | rfl <;> exact ⟨_, rfl⟩
  unfold apply framesAfter argumentFrame?
  simp [hf]

/-- The name of a function ends what either collects. -/
theorem Follows.of_word (h : Follows function a b) (habreast : Abreast function.name source a b)
    {word : String} (hword : word ∈ SymbolTable.standard.words) (tail' : List Char) :
    Follows function (a.apply .standard c tail (.emit .function word))
      (b.apply .standard c tail' (.emit .function word)) := by
  obtain ⟨hflush, happart⟩ := h.flush
  exact .names ⟨alike_emit hflush habreast.position _ c tail tail' .function word,
    argumentFrame?_of_word hword a c tail, argumentFrame?_of_word hword b c tail',
    ⟨_, List.mem_concat_self, rfl⟩, (apart_concat (by simp) happart).1⟩

/-- So does an operator. -/
theorem Follows.of_operator (h : Follows function a b)
    (habreast : Abreast function.name source a b) (houtside : a.frames = [])
    (hinside : b.frames = [{ function, depth := 1 }])
    (hunnamed : ∀ z ∈ a.flush.segments, z.kind ≠ .function) (text : String)
    (tail' : List Char) :
    Follows function (a.apply .standard c tail (.emit .operator text))
      (b.apply .standard c tail' (.emit .operator text)) := by
  obtain ⟨hflush, happart⟩ := h.flush
  obtain ⟨happart', hfree⟩ :=
    apart_concat (x := ⟨.operator, text, a.position⟩) (by simp) happart
  exact .reads ⟨alike_emit hflush habreast.position _ c tail tail' .operator text, houtside,
    hinside, List.forall_mem_append.2 ⟨hunnamed, by simp⟩, happart', hfree⟩

/-- The moves there are at a character that no argument takes. -/
theorem moveAt_cases (units : UnitRegistry) (s : Scan) (c : Char) (tail : List Char)
    (found : Option String) :
    (∃ word, found = some word ∧ s.moveAt units c tail found = .emit .function word)
      ∨ s.moveAt units c tail found = .emit .operator (String.singleton c)
      ∨ s.moveAt units c tail found = .keep
      ∨ s.moveAt units c tail found = .skip ∧ isGap c = true := by
  unfold moveAt
  cases found with
  | some word => exact Or.inl ⟨word, rfl, rfl⟩
  | none =>
      right
      simp only
      split
      · split
        · exact Or.inr (Or.inl rfl)
        · exact Or.inl rfl
      · split
        · next hgap => exact Or.inr (Or.inr ⟨rfl, hgap⟩)
        · exact Or.inr (Or.inl rfl)

/-- Where neither a word nor an operator stands, only gaps are skipped. -/
theorem moveAt_none (h : SymbolTable.standard.operatorOf? c = none) (units : UnitRegistry)
    (s : Scan) (tail : List Char) :
    s.moveAt units c tail none = if isGap c then .skip else .keep := by
  unfold moveAt
  rw [h]

/-- An operator that is no sign is emitted, unless it is a unit. -/
theorem moveAt_operator (units : UnitRegistry) {operator : OperatorSymbol}
    (hoperator : SymbolTable.standard.operatorOf? c = some operator) {s : Scan}
    (hsign : s.isSign operator tail = false) (hexponent : s.isExponentSign c tail = false) :
    s.moveAt units c tail none
      = if s.isUnitSuffix units c tail then .keep else .emit .operator (String.singleton c) := by
  unfold moveAt
  simp only [hoperator, hsign, hexponent, Bool.or_self, Bool.false_or]

/-- What goes on with a number is no operator, and no word stands there. -/
theorem none_of_number {cs : List Char} (h : Quantity.isNumberText (cs ++ [c]) = true)
    {preceding : Option Char}
    (hfound : wordAt? preceding (c :: tail) SymbolTable.standard.words = .ok found) :
    found = none ∧ SymbolTable.standard.operatorOf? c = none := by
  obtain ⟨hword, hoperator⟩ := apart_of_number h
  constructor
  · cases found with
    | none => rfl
    | some word => exact absurd (standard_word hfound).2.2.2 hword
  · cases hsome : SymbolTable.standard.operatorOf? c with
    | none => rfl
    | some operator => exact absurd (mem_of_operatorOf? hsome) hoperator

/-- What is not blank is no gap. -/
theorem isGap_eq_false (h : isBlank c = false) : isGap c = false := by
  rw [Bool.eq_false_iff]
  intro hgap
  rw [isSpacing_isBlank (isGap_isSpacing hgap)] at h
  cases h

/-- Outside of calls nothing is taken. -/
theorem argumentFrame?_of_nil (h : a.frames = []) : a.argumentFrame? = none := by
  unfold argumentFrame?
  rw [h]
  rfl

/-- Behind a number no sign is due. -/
theorem isSign_of_pending (h : Pending a.segments) (operator : OperatorSymbol)
    (tail : List Char) : a.isSign operator tail = false := by
  obtain ⟨before, x, hbefore, hliteral, -, -⟩ := h
  have hdue : operandDue a.segments.getLast? = false := by
    rw [hbefore, List.getLast?_concat, operandDue, Option.all_some, hliteral]
    rfl
  unfold isSign
  rw [hdue, Bool.and_false, Bool.false_and]

/-- Nothing is the unit of blanks. -/
theorem isUnitSuffix_of_allBlank (h : allBlank a.buffer = true) (c : Char) (tail : List Char) :
    a.isUnitSuffix units c tail = false := by
  have hnumber : Quantity.isNumberText a.buffer = false := by
    rw [Bool.eq_false_iff]
    intro hnumber
    rw [not_allBlank_of_isNumberText hnumber] at h
    cases h
  unfold isUnitSuffix
  rw [hnumber, Bool.and_false, Bool.false_and]

-- ================================================================= partings

/-- The number and its unit come apart outside of the call. -/
theorem detached_of_isUnitSuffix (habreast : Abreast function.name source a b)
    (hrest : a.rest = c :: tail) (hbehind : ∀ d ∈ tail.head?, structural? d = none)
    (hpending : Pending a.flush.segments)
    (hlast : ∃ d, isBlank d = true ∧ a.preceding = some d ∧ b.buffer.getLast? = some d)
    (hunit : b.isUnitSuffix units c (tail ++ [')']) = true) :
    Detached units source
      (a.apply .standard c tail (.emit .operator (String.singleton c))).segments := by
  obtain ⟨passed, hsource, hposition, hpreceding⟩ := habreast.parts
  obtain ⟨d, -, hd, hd'⟩ := hlast
  unfold isUnitSuffix at hunit
  simp only [Bool.and_eq_true, hd', Option.any_some, Bool.not_eq_true'] at hunit
  obtain ⟨⟨⟨hknown, hgap⟩, -⟩, hnext⟩ := hunit
  refine followed_concat.2 (Or.inr ⟨hpending, rfl, hknown, ?_, ?_⟩)
  · have hne : passed ≠ [] := by
      rintro rfl
      rw [hd] at hpreceding
      cases hpreceding
    have hlength := List.length_pos_iff.2 hne
    have hbefore : source[a.position - 1]? = some d := by
      rw [hsource, hposition, List.getElem?_append_left (by omega), ← List.getLast?_eq_getElem?,
        ← hpreceding, hd]
    show source[a.position - 1]?.all (fun c => !isGap c) = true
    rw [hbefore, Option.all_some, hgap]
    rfl
  · have hafter : source[a.position + 1]? = tail.head? := by
      rw [hsource, hposition, hrest, List.getElem?_append_right (Nat.le_add_right _ 1),
        Nat.add_sub_cancel_left, List.getElem?_cons_succ, List.head?_eq_getElem?]
    show source[a.position + 1]?.all isGap = true
    rw [hafter]
    cases tail with
    | nil => rfl
    | cons e more =>
        have hplain := hbehind e rfl
        simp only [List.cons_append, List.head?_cons, Option.all_some, Bool.or_eq_true,
          beq_iff_eq] at hnext
        rcases hnext with (hnext | rfl) | rfl
        · exact hnext
        · cases hplain
        · cases hplain

/-- A character that is not blank begins a literal outside of the call and goes
on with the number inside. -/
theorem Holds.parted (h : Holds function a b) (hc : isBlank c = false) (tail' : List Char) :
    Parted function.name (a.apply .standard c tail .keep) (b.apply .standard c tail' .keep) := by
  have hcollects := not_allBlank_of_isNumberText h.number
  obtain ⟨before, x, hbefore, hexposed⟩ := h.pending
  obtain ⟨start, hflush⟩ := flush_segments_of_trim (s := b) rfl (trim_ne_nil hcollects)
  have hflushed := h.flushed
  rw [hflush, hbefore, inCall_append] at hflushed
  obtain ⟨hsegments, hx⟩ := List.append_inj' hflushed rfl
  have htext : x.text = String.ofList (trim b.buffer) :=
    (congrArg Segment.text (List.singleton_inj.1 hx)).symm
  have hlonger := length_trim_snoc c hcollects
  refine ⟨before, x, hbefore, hexposed, ?_, hsegments, ?_, ?_⟩
  · show allBlank (a.buffer ++ [c]) = false
    rw [allBlank_snoc, hc, Bool.and_false]
  · show allBlank (b.buffer ++ [c]) = false
    rw [allBlank_snoc, hc, Bool.and_false]
  · show x.text.length < (trim (b.buffer ++ [c])).length
    rw [hc] at hlonger
    rw [htext, String.length_ofList]
    exact hlonger

-- ============================================================ held numbers

/-- A gap behind a number ends it outside of the call and goes on with it
inside. -/
theorem Reads.held (h : Reads function a b)
    (hnumber : Quantity.isNumberText (a.buffer ++ [c]) = true) (hgap : isGap c = true)
    (tail' : List Char) :
    Holds function (a.apply .standard c tail .skip) (b.apply .standard c tail' .keep) := by
  have hblank := isSpacing_isBlank (isGap_isSpacing hgap)
  have hbuffer : Quantity.isNumberText a.buffer = true :=
    (isNumberText_snoc_blank hblank a.buffer).symm.trans hnumber
  have hcollects := not_allBlank_of_isNumberText hbuffer
  obtain ⟨start, hended⟩ := flush_segments_of_trim (s := a) rfl (trim_ne_nil hcollects)
  have hexposed : Exposed a.segments ⟨.literal, String.ofList (trim a.buffer), start⟩ :=
    ⟨rfl, by rw [String.toList_ofList, isNumberText_trim, hbuffer], h.unnamed⟩
  obtain ⟨hflush, happart⟩ := (Follows.reads h).flush
  rw [← h.same.buffer] at hnumber hcollects
  exact ⟨h.outside, h.inside, happart, ⟨_, _, hended, hexposed⟩, rfl, hnumber,
    (flush_segments_keep_blank _ tail' hblank hcollects).trans hflush,
    ⟨c, hblank, rfl, List.getLast?_concat⟩⟩

/-- A blank leaves things as they are. -/
theorem Holds.pass (h : Holds function a b) (hc : isBlank c = true) (tail' : List Char) :
    Holds function (a.apply .standard c tail (if isGap c then .skip else .keep))
      (b.apply .standard c tail' .keep) := by
  have hnothing : a.flush.segments = a.segments := flush_segments_of_allBlank h.blank
  have hnumber : Quantity.isNumberText (b.buffer ++ [c]) = true := by
    rw [isNumberText_snoc_blank hc, h.number]
  have hflushed := (flush_segments_keep_blank .standard tail' hc
    (not_allBlank_of_isNumberText h.number)).trans h.flushed
  have hlast : ∃ d, isBlank d = true ∧ some c = some d ∧ (b.buffer ++ [c]).getLast? = some d :=
    ⟨c, hc, rfl, List.getLast?_concat⟩
  cases isGap c with
  | true =>
      have hsame : (a.apply .standard c tail .skip).segments = a.segments := hnothing
      exact ⟨h.outside, h.inside, hsame ▸ h.apart, hsame ▸ h.pending, rfl, hnumber,
        hsame ▸ hflushed, hlast⟩
  | false =>
      have hblank : allBlank (a.buffer ++ [c]) = true := by
        rw [allBlank_snoc, h.blank, hc, Bool.and_self]
      exact ⟨h.outside, h.inside, h.apart, h.pending, hblank, hnumber, hflushed, hlast⟩

/-- An operator is no sign to either scan; only inside of the call it may be a
unit. -/
theorem Holds.moveAt_operator (h : Holds function a b) (units : UnitRegistry)
    {operator : OperatorSymbol} (hoperator : SymbolTable.standard.operatorOf? c = some operator)
    (tail tail' : List Char) :
    a.moveAt units c tail none = .emit .operator (String.singleton c)
      ∧ b.moveAt units c tail' none
        = if b.isUnitSuffix units c tail' then .keep
          else .emit .operator (String.singleton c) := by
  have hblank : ∀ d ∈ a.buffer.getLast?, isBlank d = true :=
    fun d hd => List.all_eq_true.1 h.blank d (List.mem_of_getLast? hd)
  have hblank' : ∀ d ∈ b.buffer.getLast?, isBlank d = true := by
    obtain ⟨d, hd, -, heq⟩ := h.last
    rw [heq]
    exact fun e he => Option.some.inj he ▸ hd
  have hcomplete : b.Complete := Or.inl (not_allBlank_of_isNumberText h.number)
  constructor
  · rw [Scan.moveAt_operator units hoperator (isSign_of_pending h.pending operator tail)
      (isExponentSign_blank hblank c tail), isUnitSuffix_of_allBlank h.blank]
    rfl
  · exact Scan.moveAt_operator units hoperator (hcomplete.isSign operator tail')
      (isExponentSign_blank hblank' c tail')

-- ===================================================================== steps

section Steps

variable (habreast : Abreast function.name source a b) (hrest : a.rest = c :: tail)
  (hplain : structural? c = none)
  (hfound : wordAt? a.preceding (c :: tail) SymbolTable.standard.words = .ok found)

include habreast hrest hplain hfound

/-- Where no argument is read, both scans do the same. -/
theorem Names.advances (h : Names function a b) : Advances units source function a b c tail := by
  have hfound' := (habreast.wordAt? c tail).trans hfound
  have hmove := move_standard units hplain (argumentTakes_outside h.outside _ c) hfound
  have hmove' := move_standard units hplain (argumentTakes_outside h.inside _ c) hfound'
  rw [h.same.moveAt] at hmove'
  refine ⟨_, _, hmove, hmove', ?_⟩
  simp only [Bool.false_eq_true, ↓reduceIte]
  obtain ⟨hflush, happart⟩ := (Follows.names h).flush
  obtain ⟨z, hz, hkind⟩ := h.named
  have hz' : z ∈ a.flush.segments := a.segments_prefix_flush.subset hz
  -- No argument is read on either side, so both make the same move.
  rcases moveAt_cases units a c tail found with ⟨word, rfl, hm⟩ | hm | hm | ⟨hm, -⟩
  · obtain ⟨hword, hne, hbegins, -⟩ := standard_word hfound
    rw [hm]
    exact Or.inl ⟨habreast.emit hrest hne hbegins, (Follows.names h).of_word habreast hword _⟩
  · rw [hm]
    refine Or.inl ⟨habreast.emit hrest (singleton_ne_empty c) (singleton_begins c tail), ?_⟩
    exact .names ⟨alike_emit hflush habreast.position _ c tail _ .operator _, h.outside, h.inside,
      ⟨z, List.mem_append_left _ hz', hkind⟩, (apart_concat (by simp) happart).1⟩
  · rw [hm]
    refine Or.inl ⟨habreast.pass hrest (Or.inl rfl) (Or.inl rfl), ?_⟩
    exact .names ⟨h.same.keep habreast.position _ c tail _, h.outside, h.inside, h.named, h.apart⟩
  · rw [hm]
    refine Or.inl ⟨habreast.pass hrest (Or.inr rfl) (Or.inr rfl), ?_⟩
    exact .names ⟨alike_skip hflush _ c tail _, h.outside, h.inside, ⟨z, hz', hkind⟩, happart⟩

/-- Where both collect the same literal, the scan inside of the call keeps
what makes it a number. A gap is then where they fall out of step. -/
theorem Reads.advances (h : Reads function a b) (hf : function ∈ Numeric.functions) :
    Advances units source function a b c tail := by
  have hfound' := (habreast.wordAt? c tail).trans hfound
  have hmove := move_standard units hplain
    (argumentTakes_outside (argumentFrame?_of_nil h.outside) _ c) hfound
  have hmove' := move_standard units hplain (argumentTakes_inside hf h.inside c) hfound'
  rw [h.same.moveAt, h.same.buffer] at hmove'
  refine ⟨_, _, hmove, hmove', ?_⟩
  obtain ⟨hflush, happart⟩ := (Follows.reads h).flush
  have hunnamed := unnamed_flush h.unnamed
  have hkeep : Reads function (a.apply .standard c tail .keep)
      (b.apply .standard c (tail ++ [')']) .keep) :=
    ⟨h.same.keep habreast.position _ c tail _, h.outside, h.inside, h.unnamed, h.apart, h.free⟩
  -- If the argument takes the character it is part of a number or a blank behind one.
  cases hnumber : Quantity.isNumberText (a.buffer ++ [c]) with
  | false =>
      simp only [Bool.false_eq_true, ↓reduceIte]
      rcases moveAt_cases units a c tail found with ⟨word, rfl, hm⟩ | hm | hm | ⟨hm, hgap⟩
      · obtain ⟨hword, hne, hbegins, -⟩ := standard_word hfound
        rw [hm]
        exact Or.inl ⟨habreast.emit hrest hne hbegins, (Follows.reads h).of_word habreast hword _⟩
      · rw [hm]
        exact Or.inl ⟨habreast.emit hrest (singleton_ne_empty c) (singleton_begins c tail),
          (Follows.reads h).of_operator habreast h.outside h.inside hunnamed _ _⟩
      · rw [hm]
        exact Or.inl ⟨habreast.pass hrest (Or.inl rfl) (Or.inl rfl), .reads hkeep⟩
      · -- What a gap ends is no number, or else it would be kept inside.
        rw [isNumberText_snoc_blank (isSpacing_isBlank (isGap_isSpacing hgap))] at hnumber
        rw [hm]
        refine Or.inl ⟨habreast.pass hrest (Or.inr rfl) (Or.inr rfl), ?_⟩
        exact .reads ⟨alike_skip hflush _ c tail _, h.outside, h.inside, hunnamed, happart,
          not_pending_flush h.free hnumber⟩
  | true =>
      simp only [Bool.false_eq_true, ↓reduceIte]
      obtain ⟨rfl, hoperator⟩ := none_of_number hnumber hfound
      rw [moveAt_none hoperator]
      cases hgap : isGap c with
      | false => exact Or.inl ⟨habreast.pass hrest (Or.inl rfl) (Or.inl rfl), .reads hkeep⟩
      | true =>
          exact Or.inl ⟨habreast.pass hrest (Or.inr rfl) (Or.inl rfl),
            .holds (h.held hnumber hgap _)⟩

/-- Where the scan inside of the call still collects the number, it takes
every blank. A word or an operator ends the number for it as well, unless the
operator is read as its unit; anything else goes on with it. -/
theorem Holds.advances (h : Holds function a b) (hf : function ∈ Numeric.functions)
    (hbehind : ∀ d ∈ tail.head?, structural? d = none) :
    Advances units source function a b c tail := by
  have hfound' := (habreast.wordAt? c tail).trans hfound
  have hmove := move_standard units hplain
    (argumentTakes_outside (argumentFrame?_of_nil h.outside) _ c) hfound
  have hmove' := move_standard units hplain (argumentTakes_inside hf h.inside c) hfound'
  refine ⟨_, _, hmove, hmove', ?_⟩
  have hnothing : a.flush.segments = a.segments := flush_segments_of_allBlank h.blank
  -- Inside, the argument is asked first: it takes more of the number, which outside is no longer
  -- there to go on with.
  cases htakes : Quantity.isNumberText (b.buffer ++ [c]) with
  | true =>
      obtain ⟨rfl, hoperator⟩ := none_of_number htakes hfound
      rw [moveAt_none hoperator]
      cases hc : isBlank c with
      | true =>
          refine Or.inl ⟨habreast.pass hrest ?_ (Or.inl rfl), .holds (h.pass hc _)⟩
          cases isGap c with
          | true => exact Or.inr rfl
          | false => exact Or.inl rfl
      | false =>
          rw [isGap_eq_false hc]
          exact Or.inr (Or.inl (h.parted hc _))
  | false =>
      have hc : isBlank c = false := by
        rw [Bool.eq_false_iff]
        intro hc
        rw [isNumberText_snoc_blank hc, h.number] at htakes
        cases htakes
      simp only [Bool.false_eq_true, ↓reduceIte]
      cases found with
      | some word =>
          obtain ⟨hword, hne, hbegins, -⟩ := standard_word hfound
          exact Or.inl ⟨habreast.emit hrest hne hbegins,
            (Follows.holds h).of_word habreast hword _⟩
      | none =>
          cases hoperator : SymbolTable.standard.operatorOf? c with
          | none =>
              rw [moveAt_none hoperator, moveAt_none hoperator, isGap_eq_false hc]
              exact Or.inr (Or.inl (h.parted hc _))
          | some operator =>
              obtain ⟨houter, hinner⟩ := h.moveAt_operator units hoperator tail (tail ++ [')'])
              have hpending : Pending a.flush.segments := by rw [hnothing]; exact h.pending
              rw [houter, hinner]
              cases hunit : b.isUnitSuffix units c (tail ++ [')']) with
              | true =>
                  exact Or.inr (Or.inr
                    (detached_of_isUnitSuffix habreast hrest hbehind hpending h.last hunit))
              | false =>
                  exact Or.inl ⟨habreast.emit hrest (singleton_ne_empty c)
                      (singleton_begins c tail),
                    (Follows.holds h).of_operator habreast h.outside h.inside hpending.unnamed _ _⟩

end Steps

/-- Every situation leads on. -/
theorem Follows.advances (units : UnitRegistry) (h : Follows function a b)
    (hf : function ∈ Numeric.functions) (habreast : Abreast function.name source a b)
    (hrest : a.rest = c :: tail) (hplain : ∀ d ∈ a.rest, structural? d = none) :
    Advances units source function a b c tail := by
  rw [hrest] at hplain
  have hc := hplain c List.mem_cons_self
  have hbehind : ∀ d ∈ tail.head?, structural? d = none :=
    fun d hd => hplain d (List.mem_cons_of_mem c (List.mem_of_mem_head? hd))
  obtain ⟨found, hfound, -⟩ :=
    wordAt?_total (fun _ => standard_readable.word_ne_empty) a.preceding (c :: tail)
  cases h with
  | reads h => exact h.advances habreast hrest hc hfound hf
  | holds h => exact h.advances habreast hrest hc hfound hf hbehind
  | names h => exact h.advances habreast hrest hc hfound

end Scan

end UnitCalc
