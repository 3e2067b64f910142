/-
Nothing of a source gets lost.

# Covers

Segments are laid over the source one behind the other, and what they leave
open is blank (`Covered`). The relation knows nothing of scans: a blank or the
text of a segment is added at the end, and what a finished cover says about
places in the source follows by induction on it, one lemma for each field of
`Segment.Tiles`. Every one of these looks at a place either in front of what
was added or inside of it.

# Scans

A scan divides its source into what is covered, the literal it collects and the
rest (`Scan.Divides`). A move shifts the borders, and only the end of a literal
takes a look at the text: the blanks around it go into the cover one at a time,
and what is between them is a segment (`Scan.Divides.flush`). At the end of the
run the rest is empty and the cover is all there is.

Covers also tell where a segment stands that is the only one
(`Proofs/Scan/Numeral`), and that there are no more segments than characters
(`Proofs/Parsing/Places`).
-/
import UnitCalc.Config.Basic
import UnitCalc.Proofs.Scan.Collecting

namespace UnitCalc

open Text

-- =================================================================== covers

/-- A segment as it is cut from a source. -/
inductive Segment.Proper : Segment → Prop
  | literal {text : String} {position : Nat} (nonempty : text ≠ "")
      (opens : ∀ c ∈ text.toList.head?, isBlank c = false)
      (ends : ∀ c ∈ text.toList.getLast?, isBlank c = false)
      (plain : ∀ c ∈ text.toList, structural? c = none) : Proper ⟨.literal, text, position⟩
  | symbol {kind : SegmentKind} {text : String} {position : Nat}
      (names : kind = .function ∨ kind = .operator) (nonempty : text ≠ "") :
      Proper ⟨kind, text, position⟩
  | structural {kind : SegmentKind} {c : Char} {position : Nat}
      (structures : structural? c = some kind) : Proper ⟨kind, String.singleton c, position⟩

theorem Segment.Proper.length_pos {x : Segment} (h : x.Proper) : 0 < x.text.length := by
  have hne : x.text ≠ "" := by
    cases h with
    | literal hne _ _ _ => exact hne
    | symbol _ hne => exact hne
    | structural _ => exact singleton_ne_empty _
  rw [← String.length_toList]
  exact List.length_pos_iff.2 (by simpa using hne)

/-- A text with segments laid over it. -/
inductive Covered : List Char → List Segment → Prop
  | nothing : Covered [] []
  | blank {cs : List Char} {segments : List Segment} {c : Char} (before : Covered cs segments)
      (blank : isBlank c = true) : Covered (cs ++ [c]) segments
  | segment {cs : List Char} {segments : List Segment} {x : Segment}
      (before : Covered cs segments) (proper : x.Proper) (position : x.position = cs.length) :
      Covered (cs ++ x.text.toList) (segments ++ [x])

/-- Whether a place in the source belongs to a segment. -/
def Segment.Covers (x : Segment) (i : Nat) : Prop :=
  x.position ≤ i ∧ i < x.position + x.text.length

/-- A character of a joined text stands in the one part or in the other. -/
theorem getElem?_append_cases {l r : List Char} {i : Nat} {c : Char} (h : (l ++ r)[i]? = some c) :
    l[i]? = some c ∨ l.length ≤ i ∧ r[i - l.length]? = some c := by
  by_cases hi : i < l.length
  · left
    rwa [List.getElem?_append_left hi] at h
  · right
    rw [List.getElem?_append_right (Nat.not_lt.1 hi)] at h
    exact ⟨Nat.not_lt.1 hi, h⟩

/-- Blanks are not structural. -/
theorem structural?_of_isBlank {c : Char} (h : isBlank c = true) : structural? c = none := by
  cases hkind : structural? c with
  | none => rfl
  | some kind =>
      rcases structural?_eq_some.1 hkind with ⟨rfl, -⟩ | ⟨rfl, -⟩ | ⟨rfl, -⟩ <;> cases h

namespace Covered

variable {cs : List Char} {segments : List Segment}

theorem blanks {more : List Char} (h : Covered cs segments)
    (hmore : ∀ c ∈ more, isBlank c = true) : Covered (cs ++ more) segments := by
  induction more generalizing cs with
  | nil => rwa [List.append_nil]
  | cons c more ih =>
      have hnext := ih (h.blank (hmore c List.mem_cons_self))
        fun d hd => hmore d (List.mem_cons_of_mem c hd)
      rwa [List.append_assoc, List.singleton_append] at hnext

theorem proper (h : Covered cs segments) : ∀ x ∈ segments, x.Proper := by
  induction h with
  | nothing => simp
  | blank _ _ ih => exact ih
  | segment _ hx _ ih =>
      intro y hy
      rcases List.mem_append.1 hy with hy | hy
      · exact ih y hy
      · rwa [List.mem_singleton.1 hy]

/-- Segments end inside of the text. -/
theorem ends (h : Covered cs segments) :
    ∀ x ∈ segments, x.position + x.text.length ≤ cs.length := by
  induction h with
  | nothing => simp
  | blank _ _ ih =>
      intro x hx
      have hle := ih x hx
      rw [List.length_append]
      omega
  | segment _ _ hposition ih =>
      intro y hy
      rw [List.length_append, String.length_toList]
      rcases List.mem_append.1 hy with hy | hy
      · have hle := ih y hy
        omega
      · rw [List.mem_singleton.1 hy, hposition]

/-- There are no more segments than characters. -/
theorem length_le (h : Covered cs segments) : segments.length ≤ cs.length := by
  induction h with
  | nothing => exact Nat.le_refl _
  | blank _ _ ih =>
      rw [List.length_append]
      omega
  | segment _ hx _ ih =>
      have hpos := hx.length_pos
      rw [List.length_append, List.length_append, String.length_toList, List.length_singleton]
      omega

/-- Every segment has the text of its place. -/
theorem slices (h : Covered cs segments) :
    ∀ x ∈ segments, (cs.drop x.position).take x.text.length = x.text.toList := by
  induction h with
  | nothing => simp
  | @blank cs segments c hbefore _ ih =>
      intro x hx
      have hends := hbefore.ends x hx
      rw [List.drop_append_of_le_length (by omega),
        List.take_append_of_le_length (by rw [List.length_drop]; omega)]
      exact ih x hx
  | @segment cs segments x hbefore hx hposition ih =>
      intro y hy
      rcases List.mem_append.1 hy with hy | hy
      · have hends := hbefore.ends y hy
        rw [List.drop_append_of_le_length (by omega),
          List.take_append_of_le_length (by rw [List.length_drop]; omega)]
        exact ih y hy
      · obtain rfl := List.mem_singleton.1 hy
        rw [hposition, List.drop_left, ← String.length_toList, List.take_length]

/-- Segments follow each other in the text. -/
theorem ordered (h : Covered cs segments) :
    segments.Pairwise fun x y => x.position < y.position
      ∧ x.position + x.text.length ≤ y.position := by
  induction h with
  | nothing => exact .nil
  | blank _ _ ih => exact ih
  | @segment cs segments x hbefore hx hposition ih =>
      refine List.pairwise_append.2 ⟨ih, List.pairwise_singleton _ _, ?_⟩
      intro y hy z hz
      obtain rfl := List.mem_singleton.1 hz
      have hends := hbefore.ends y hy
      have hpos := (hbefore.proper y hy).length_pos
      omega

/-- What no segment covers is blank. -/
theorem blank_between (h : Covered cs segments) {i : Nat} {c : Char} (hc : cs[i]? = some c)
    (hout : ∀ x ∈ segments, ¬ x.Covers i) : isBlank c = true := by
  induction h with
  | nothing => simp at hc
  | blank _ hblank ih =>
      rcases getElem?_append_cases hc with hc | ⟨-, hc⟩
      · exact ih hc hout
      · rwa [List.mem_singleton.1 (List.mem_of_getElem? hc)]
  | segment _ _ hposition ih =>
      rcases getElem?_append_cases hc with hc | ⟨hle, hc⟩
      · exact ih hc fun y hy => hout y (List.mem_append_left _ hy)
      · obtain ⟨hlt, -⟩ := List.getElem?_eq_some_iff.1 hc
        rw [String.length_toList] at hlt
        refine absurd ?_ (hout _ List.mem_concat_self)
        constructor <;> omega

/-- A character that structures the text and belongs to no function or
operator is a segment. -/
theorem structural (h : Covered cs segments) {i : Nat} {c : Char} {kind : SegmentKind}
    (hc : cs[i]? = some c) (hkind : structural? c = some kind)
    (hout : ∀ x ∈ segments, x.Covers i → x.kind ≠ .function ∧ x.kind ≠ .operator) :
    ⟨kind, String.singleton c, i⟩ ∈ segments := by
  induction h with
  | nothing => simp at hc
  | blank _ hblank ih =>
      rcases getElem?_append_cases hc with hc | ⟨-, hc⟩
      · exact ih hc hout
      · obtain rfl := List.mem_singleton.1 (List.mem_of_getElem? hc)
        rw [structural?_of_isBlank hblank] at hkind
        cases hkind
  | @segment cs segments x _ hx hposition ih =>
      rcases getElem?_append_cases hc with hc | ⟨hle, hc⟩
      · exact List.mem_append_left _ (ih hc fun y hy => hout y (List.mem_append_left _ hy))
      · obtain ⟨hlt, -⟩ := List.getElem?_eq_some_iff.1 hc
        rw [String.length_toList] at hlt
        have hcovers : x.Covers i := by
          constructor <;> omega
        -- The character is in this segment: no literal has one, and functions and operators are
        -- excluded.
        cases hx with
        | literal _ _ _ hplain =>
            rw [hplain c (List.mem_of_getElem? hc)] at hkind
            cases hkind
        | symbol hnames _ =>
            obtain ⟨hfunction, hoperator⟩ := hout _ List.mem_concat_self hcovers
            rcases hnames with hname | hname
            · exact absurd hname hfunction
            · exact absurd hname hoperator
        | @structural kind' d position hstructures =>
            have hd : d = c := by
              have hmem := List.mem_of_getElem? hc
              rw [String.toList_singleton, List.mem_singleton] at hmem
              exact hmem.symm
            obtain rfl := hd
            rw [hkind] at hstructures
            obtain rfl := Option.some.inj hstructures
            have hi : i = position := by
              simp only [String.length_singleton] at hlt
              simp only at hposition
              omega
            rw [hi]
            exact List.mem_concat_self

end Covered

-- ==================================================================== scans

/-- A scan between what is covered of its source and the rest. -/
structure Scan.Divides (source covered : List Char) (s : Scan) : Prop where
  parts : source = covered ++ s.buffer ++ s.rest
  covers : Covered covered s.segments
  position : s.position = (covered ++ s.buffer).length
  start : s.buffer ≠ [] → s.bufferStart = covered.length
  plain : ∀ c ∈ s.buffer, structural? c = none

namespace Scan.Divides

variable {source covered : List Char} {s : Scan} {symbols : SymbolTable} {c : Char}
  {tail : List Char}

theorem nothing (source : List Char) : Divides source [] { rest := source } where
  parts := rfl
  covers := .nothing
  position := rfl
  start hne := absurd rfl hne
  plain := by simp

/-- The end of a literal covers all that has been collected. -/
theorem flush (h : Divides source covered s) : Covered (covered ++ s.buffer) s.flush.segments := by
  obtain ⟨lead, trail, hparts, hlead, htrail, hlength⟩ := trim_parts s.buffer
  have hbefore := h.covers.blanks hlead
  unfold Scan.flush
  dsimp only
  -- If only blanks were collected they are all passed; otherwise the segment lies between those
  -- in front and those behind.
  by_cases hempty : trim s.buffer = []
  · rw [hempty, List.append_nil] at hparts
    rw [if_pos (by simp [hempty]), hparts, ← List.append_assoc]
    exact hbefore.blanks htrail
  · have hstart : s.bufferStart = covered.length := by
      refine h.start fun hnil => hempty ?_
      rw [hnil]
      rfl
    have hproper : Segment.Proper ⟨.literal, String.ofList (trim s.buffer),
        s.bufferStart + (s.buffer.length - (trimStart s.buffer).length)⟩ := by
      refine .literal ?_ ?_ ?_ ?_
      · rwa [← String.toList_inj.ne, String.toList_ofList]
      · rw [String.toList_ofList]
        exact fun c hc => head_trim hc
      · rw [String.toList_ofList]
        exact fun c hc => getLast_trim hc
      · rw [String.toList_ofList]
        intro c hc
        refine h.plain c ?_
        rw [hparts]
        exact List.mem_append_left _ (List.mem_append_right _ hc)
    have hliteral := hbefore.segment hproper (by rw [List.length_append, hstart, hlength])
    rw [String.toList_ofList] at hliteral
    have hall := hliteral.blanks htrail
    rw [List.append_assoc covered, List.append_assoc covered, ← hparts] at hall
    rwa [if_neg (by simpa using hempty)]

theorem keep (h : Divides source covered s) (hrest : s.rest = c :: tail)
    (hplain : structural? c = none) :
    Divides source covered (s.apply symbols c tail .keep) where
  parts := by
    show source = covered ++ (s.buffer ++ [c]) ++ tail
    rw [h.parts, hrest]
    simp
  covers := h.covers
  position := by
    show s.position + 1 = (covered ++ (s.buffer ++ [c])).length
    rw [h.position]
    simp only [List.length_append, List.length_singleton, Nat.add_assoc]
  start _ := by
    show (if s.buffer.isEmpty then s.position else s.bufferStart) = covered.length
    cases hbuffer : s.buffer with
    | nil =>
        rw [List.isEmpty_nil, if_pos rfl, h.position, hbuffer, List.append_nil]
    | cons d more =>
        rw [List.isEmpty_cons, if_neg Bool.false_ne_true]
        exact h.start (by simp [hbuffer])
  plain := by
    intro d hd
    rcases List.mem_append.1 hd with hd | hd
    · exact h.plain d hd
    · rwa [List.mem_singleton.1 hd]

theorem skip (h : Divides source covered s) (hrest : s.rest = c :: tail)
    (hblank : isBlank c = true) :
    Divides source (covered ++ s.buffer ++ [c]) (s.apply symbols c tail .skip) where
  parts := by
    show source = covered ++ s.buffer ++ [c] ++ [] ++ tail
    rw [h.parts, hrest]
    simp
  covers := h.flush.blank hblank
  position := by
    show s.position + 1 = (covered ++ s.buffer ++ [c] ++ []).length
    rw [h.position]
    simp only [List.length_append, List.length_singleton, List.append_nil]
  start hne := absurd rfl hne
  plain := by
    intro d hd
    cases hd

theorem emit (h : Divides source covered s) (hrest : s.rest = c :: tail) {kind : SegmentKind}
    {text : String} (hproper : Segment.Proper ⟨kind, text, s.position⟩)
    (hbegins : text.toList <+: c :: tail) :
    Divides source (covered ++ s.buffer ++ text.toList)
      (s.apply symbols c tail (.emit kind text)) where
  parts := by
    show source = covered ++ s.buffer ++ text.toList ++ [] ++ tail.drop (text.length - 1)
    have hpos : 0 < text.length := hproper.length_pos
    obtain ⟨more, hmore⟩ := hbegins
    have hdrop : tail.drop (text.length - 1) = more := by
      rw [← List.drop_succ_cons (a := c), Nat.sub_add_cancel hpos, ← hmore,
        ← String.length_toList, List.drop_left]
    rw [h.parts, hrest, ← hmore, hdrop]
    simp
  covers := h.flush.segment hproper h.position
  position := by
    show s.position + text.length = (covered ++ s.buffer ++ text.toList ++ []).length
    rw [h.position, List.append_nil, ← String.length_toList]
    exact List.length_append.symm
  start hne := absurd rfl hne
  plain := by
    intro d hd
    cases hd

/-- Every move goes on with a part of the source covered. -/
theorem apply (h : Divides source covered s) (hrest : s.rest = c :: tail) {move : Move}
    (hmove : Lexicon.Moved c tail move) :
    ∃ covered', Divides source covered' (s.apply symbols c tail move) := by
  cases hmove with
  | keep hplain => exact ⟨_, h.keep hrest hplain⟩
  | skip hgap => exact ⟨_, h.skip hrest (isSpacing_isBlank (isGap_isSpacing hgap))⟩
  | structural hkind => exact ⟨_, h.emit hrest (.structural hkind) (singleton_begins c tail)⟩
  | symbol hnames hne hbegins => exact ⟨_, h.emit hrest (.symbol hnames hne) hbegins⟩

/-- A run ends with the whole source behind it. -/
theorem run {lexicon : Lexicon} {s scanned : Scan} (h : Divides source covered s)
    (hrun : Scan.run lexicon s = .ok scanned) :
    ∃ covered', Divides source covered' scanned ∧ scanned.rest = [] := by
  obtain ⟨⟨covered', hdivides⟩, hrest⟩ := Scan.run_preserves
    (P := fun s => ∃ covered, Divides source covered s)
    (fun s c tail move hrest hmove ⟨_, hs⟩ => hs.apply hrest (Lexicon.moved hmove))
    rfl ⟨covered, h⟩ hrun
  exact ⟨covered', hdivides, hrest⟩

end Scan.Divides

-- ================================================================== segments

namespace Segment

variable {lexicon : Lexicon} {limits : Limits} {source : String} {segments : List Segment}

/-- A source is covered by its segments. -/
theorem covered_of_ofSource (h : Segment.ofSource? lexicon limits source = .ok segments) :
    Covered source.toList segments := by
  obtain ⟨scanned, hrun, hsegments⟩ := run_of_ofSource h
  obtain ⟨covered, hdivides, hrest⟩ := (Scan.Divides.nothing source.toList).run hrun
  have hparts := hdivides.parts
  rw [hrest, List.append_nil] at hparts
  rw [hparts, ← hsegments]
  exact hdivides.flush

/-- What the segments of a source tell about it. -/
structure Tiles (source : List Char) (segments : List Segment) : Prop where
  /-- Every segment has the text of its place. -/
  slices : ∀ x ∈ segments, (source.drop x.position).take x.text.length = x.text.toList
  /-- Segments are in the order of their positions, and none begins before the one in front of
  it has ended. -/
  ordered : segments.Pairwise fun x y => x.position < y.position
    ∧ x.position + x.text.length ≤ y.position
  /-- Only blanks lie outside of all segments. -/
  blanks : ∀ i c, source[i]? = some c → (∀ x ∈ segments, ¬ x.Covers i) → isBlank c = true
  /-- Literals are not empty, have no blanks around them and contain neither parentheses nor
  commas. -/
  literals : ∀ x ∈ segments, x.kind = .literal → x.text ≠ ""
    ∧ (∀ c ∈ x.text.toList.head?, isBlank c = false)
    ∧ (∀ c ∈ x.text.toList.getLast?, isBlank c = false)
    ∧ ∀ c ∈ x.text.toList, c ≠ '(' ∧ c ≠ ')' ∧ c ≠ ','
  /-- Parentheses and commas outside of functions and operators are segments of their own. -/
  structural : ∀ i c kind, source[i]? = some c →
    c = '(' ∧ kind = .leftParen ∨ c = ')' ∧ kind = .rightParen ∨ c = ',' ∧ kind = .comma →
    (∀ x ∈ segments, x.Covers i → x.kind ≠ .function ∧ x.kind ≠ .operator) →
    ⟨kind, String.singleton c, i⟩ ∈ segments

/-- Whatever the symbols and the units, the segments of a source are a
faithful cover of it. -/
theorem ofSource_tiles (symbols : SymbolTable) (units : UnitRegistry) (limits : Limits)
    (source : String) (segments : List Segment)
    (h : Segment.ofSource? (.of symbols units) limits source = .ok segments) :
    Tiles source.toList segments := by
  have hcovered := covered_of_ofSource h
  refine ⟨hcovered.slices, hcovered.ordered, fun i c => hcovered.blank_between, ?_, ?_⟩
  · intro x hx hkind
    cases hcovered.proper x hx with
    | literal hne hopens hends hplain =>
        refine ⟨hne, hopens, hends, fun c hc => ?_⟩
        have hc := hplain c hc
        refine ⟨?_, ?_, ?_⟩ <;> rintro rfl <;> cases hc
    | symbol hnames _ => rcases hnames with rfl | rfl <;> cases hkind
    | structural hstructures =>
        rcases structural?_eq_some.1 hstructures with ⟨-, rfl⟩ | ⟨-, rfl⟩ | ⟨-, rfl⟩ <;> cases hkind
  · intro i c kind hc hkind
    exact hcovered.structural hc (structural?_eq_some.2 hkind)

/-- The segments of ` max(1 mm , (2))`. -/
def nestedSegments : List Segment :=
  [⟨.function, "max", 1⟩, ⟨.leftParen, "(", 4⟩, ⟨.literal, "1 mm", 5⟩, ⟨.comma, ",", 10⟩,
   ⟨.leftParen, "(", 12⟩, ⟨.literal, "2", 13⟩, ⟨.rightParen, ")", 14⟩, ⟨.rightParen, ")", 15⟩]

/-- The cover of a call, with blanks in front of it, in an argument and
behind one. -/
theorem ofSource_tiles_call :
    Segment.ofSource? (.of .standard ({} : Config).units) .standard " max(1 mm , (2))"
        = .ok nestedSegments
      ∧ Tiles " max(1 mm , (2))".toList nestedSegments := by
  have hsegments : Segment.ofSource? (.of .standard ({} : Config).units) .standard
      " max(1 mm , (2))" = .ok nestedSegments := by
    decide +kernel
  exact ⟨hsegments, ofSource_tiles _ _ _ _ _ hsegments⟩

end Segment

end UnitCalc
