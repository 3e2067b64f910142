/-
Printing is undone by parsing.

The parentheses of a printed expression alone tell how it is read; what has to
be seen is that the scan cuts it where it was put together. Then the segments
read as the expression, and parsing is complete for sentences
(`Proofs/Parsing/Complete`).

# What a part is told of its surroundings

`Expr.IsPassed` says of an expression, in any place where an operand may begin
and with anything behind it that ends a literal, that the scan passes it: the
segments it is cut into read as the expression again, up to the positions, which
are new. All it needs to know of what is in front is `Scan.Awaits`: nothing is
being collected, an operand is due, and no word could go on there. Behind it
there is nothing, or a blank, a comma or a closing parenthesis comes next
(`StopsLiteral`).

A scan passes an expression and is then complete, with a literal possibly still
being collected (`Scan.Passes`). So segments are compared as they are when that
is flushed; an operator or a parenthesis flushes it at once.

# The induction

It goes by the structure of the expression (`Expr.passed`), with one lemma for
each kind: a literal, an operation in its parentheses, a call with or without
arguments, one argument, and several. Around a call the frames are as before,
and within it the commas are counted, on which nothing depends with the standard
functions, since they take only numbers (`Frame.Settled`).
-/
import UnitCalc.Proofs.Expr.Printed
import UnitCalc.Proofs.Parsing.Complete
import UnitCalc.Proofs.Scan.Passing

namespace UnitCalc

open Text

variable {resolution : Value} {canonical : String} {s s' : Scan}

-- ===================================================== the standard symbols

theorem standard_function_mem {function : FunctionSymbol}
    (h : SymbolTable.standard.functions.get? function.name = some function) :
    function ∈ Numeric.functions :=
  List.mem_of_find?_eq_some h

-- ================================================================ brackets

/-- What an open parenthesis does to the calls around, the one that closes
it undoes. -/
theorem framesAfter_group {symbols : SymbolTable} {frames : List Frame}
    (hs : ∀ frame ∈ frames, frame.Settled) :
    Scan.framesAfter symbols .rightParen ")" (Scan.framesAfter symbols .leftParen "(" frames)
      = frames := by
  cases frames with
  | nil => rfl
  | cons frame outer =>
      have hdepth : frame.depth ≠ 0 := by
        have hsettled := (hs frame List.mem_cons_self).1
        omega
      simp [Scan.framesAfter, hdepth]

/-- A function's name opens its call. -/
theorem framesAfter_function {symbols : SymbolTable} {name : String} {function : FunctionSymbol}
    {frames : List Frame} (h : symbols.functions.get? name = some function) :
    Scan.framesAfter symbols .function name frames = { function } :: frames := by
  simp [Scan.framesAfter, h]

/-- The end of a call leaves the calls around it. -/
theorem framesAfter_call {symbols : SymbolTable} {frame : Frame} {outer : List Frame}
    (h : frame.depth = 1) :
    Scan.framesAfter symbols .rightParen ")" (frame :: outer) = outer := by
  simp [Scan.framesAfter, h]

/-- An open parenthesis changes at most the depth of the calls around. -/
theorem settled_leftParen {symbols : SymbolTable} {text : String} {frames : List Frame}
    (hs : ∀ frame ∈ frames, frame.Settled) :
    ∀ frame ∈ Scan.framesAfter symbols .leftParen text frames, frame.Settled := by
  cases frames with
  | nil => exact hs
  | cons frame outer =>
      rw [List.forall_mem_cons] at hs
      obtain ⟨⟨hdepth, hparameters⟩, houter⟩ := hs
      refine List.forall_mem_cons.2 ⟨⟨?_, hparameters⟩, houter⟩
      show 1 ≤ frame.depth + 1
      omega

-- ============================================================== separators

/-- An open parenthesis awaits an operand. -/
theorem Scan.Awaits.leftParen (units : UnitRegistry) (hs : s.Awaits) {k : List Char}
    (hrest : s.rest = '(' :: k) :
    ∃ s', Scan.Emits (.of .standard units) s .leftParen "(" s' ∧ s'.rest = k
      ∧ s'.Awaits ∧ ∃ position, s'.segments = s.segments ++ [⟨.leftParen, "(", position⟩] := by
  obtain ⟨s', hemits, hbehind⟩ :=
    Scan.Emits.structural (.of .standard units) (c := '(') rfl hrest
  have hsettled : ∀ frame ∈ s'.frames, frame.Settled := by
    rw [hemits.frames]
    exact settled_leftParen hs.settled
  obtain ⟨position, hsegments⟩ := hemits.segments
  rw [Scan.flush_segments_of_nil hs.buffer] at hsegments
  exact ⟨s', hemits, hbehind, hemits.awaits (Or.inl rfl) hsettled rfl, position, hsegments⟩

/-- A function and its parenthesis await an argument. -/
theorem Scan.Awaits.callOpen (units : UnitRegistry) (hs : s.Awaits) {function : FunctionSymbol}
    (hf : function ∈ Numeric.functions) {k : List Char}
    (hrest : s.rest = function.name.toList ++ '(' :: k) :
    ∃ s', Scan.run (.of .standard units) s = Scan.run (.of .standard units) s'
      ∧ s'.rest = k ∧ s'.Awaits ∧ s'.frames = { function, depth := 1 } :: s.frames
      ∧ ∃ p p', s'.segments
        = s.segments ++ [⟨.function, function.name, p⟩, ⟨.leftParen, "(", p'⟩] := by
  obtain ⟨⟨c, letters, hname, -⟩, hknown, hparameters⟩ := standard_function hf
  have hletters := hrest
  rw [hname, List.cons_append] at hletters
  obtain ⟨s1, hnamed, hrest1⟩ := Scan.Emits.of_move (.of .standard units)
    hname hletters rfl (move_function hf hs.settled hs.preceding (by rw [← hletters, hrest]))
  obtain ⟨s2, hopened, hrest2⟩ :=
    Scan.Emits.structural (.of .standard units) (c := '(') rfl hrest1
  have hframes1 : s1.frames = { function } :: s.frames := by
    rw [hnamed.frames]
    exact framesAfter_function hknown
  have hframes2 : s2.frames = { function, depth := 1 } :: s.frames := by
    rw [hopened.frames, hframes1]
    rfl
  have hsettled : ∀ frame ∈ s2.frames, frame.Settled := by
    rw [hframes2]
    exact List.forall_mem_cons.2 ⟨⟨Nat.le_refl 1, hparameters⟩, hs.settled⟩
  obtain ⟨p, hsegments1⟩ := hnamed.segments
  obtain ⟨p', hsegments2⟩ := hopened.segments
  refine ⟨s2, hnamed.run.trans hopened.run, hrest2, hopened.awaits (Or.inl rfl) hsettled rfl,
    hframes2, p, p', ?_⟩
  rw [hsegments2, Scan.flush_segments_of_nil hnamed.buffer, hsegments1,
    Scan.flush_segments_of_nil hs.buffer, List.append_assoc]
  rfl

/-- An operator between blanks awaits its right operand. -/
theorem Scan.Complete.operator_spaced (units : UnitRegistry) (h : s.Complete)
    (hs : ∀ frame ∈ s.frames, frame.Settled) {operator : OperatorSymbol}
    (hknown : SymbolTable.standard.operators.get? operator.symbol = some operator)
    {k : List Char} (hrest : s.rest = ' ' :: (operator.symbol.toList ++ ' ' :: k)) :
    ∃ s', Scan.run (.of .standard units) s = Scan.run (.of .standard units) s'
      ∧ s'.rest = k ∧ s'.Awaits ∧ s'.frames = s.frames
      ∧ ∃ p, s'.segments = s.flush.segments ++ [⟨.operator, operator.symbol, p⟩] := by
  obtain ⟨c, hsymbol, hc, hoperator⟩ := standard_operator hknown
  rw [hsymbol, String.toList_singleton, List.singleton_append] at hrest
  obtain ⟨s1, hrun1, hrest1, hcomplete1, hlast1, hsegments1, hframes1⟩ :=
    h.space units hs hrest
  have hsettled1 : ∀ frame ∈ s1.frames, frame.Settled := by rwa [hframes1]
  obtain ⟨s2, hemits, hrest2⟩ := hcomplete1.operator units
    hsettled1 hlast1 hc hoperator hrest1
  have hframes2 : s2.frames = s.frames := by
    rw [hemits.frames, ← hframes1]
    rfl
  have hsettled2 : ∀ frame ∈ s2.frames, frame.Settled := by rwa [hframes2]
  have hpart : (String.singleton c).toList.getLast?.any isWordPart = false := by
    have hall : ∀ d ∈ ['+', '-', '*', '/', '%'], isWordPart d = false :=
      forall_mem_of_all (by decide)
    rw [String.toList_singleton]
    exact hall c hc
  have hawaits2 := hemits.awaits (Or.inr (Or.inl rfl)) hsettled2 hpart
  obtain ⟨s3, hrun3, hrest3, hawaits3, hsegments3, hframes3⟩ :=
    hawaits2.space units hrest2
  obtain ⟨p, hsegments2⟩ := hemits.segments
  refine ⟨s3, hrun1.trans (hemits.run.trans hrun3), hrest3, hawaits3, hframes3.trans hframes2, p,
    ?_⟩
  rw [hsegments3, hsegments2, hsegments1, hsymbol]

/-- A comma and a blank await the next argument of the call around. -/
theorem Scan.comma_spaced (units : UnitRegistry) (hs : ∀ frame ∈ s.frames, frame.Settled)
    {frame : Frame} {outer : List Frame} (hframes : s.frames = frame :: outer)
    (hdepth : frame.depth = 1) {k : List Char} (hrest : s.rest = ',' :: ' ' :: k) :
    ∃ s', Scan.run (.of .standard units) s = Scan.run (.of .standard units) s'
      ∧ s'.rest = k ∧ s'.Awaits
      ∧ s'.frames = { frame with commas := frame.commas + 1 } :: outer
      ∧ ∃ p, s'.segments = s.flush.segments ++ [⟨.comma, ",", p⟩] := by
  obtain ⟨s1, hemits, hrest1⟩ :=
    Scan.Emits.structural (.of .standard units) (c := ',') rfl hrest
  have hframes1 : s1.frames = { frame with commas := frame.commas + 1 } :: outer := by
    rw [hemits.frames, hframes]
    simp [Scan.framesAfter, hdepth]
  have hsettled1 : ∀ frame ∈ s1.frames, frame.Settled := by
    rw [hframes, List.forall_mem_cons] at hs
    rw [hframes1]
    exact List.forall_mem_cons.2 hs
  have hawaits1 := hemits.awaits (Or.inr (Or.inr rfl)) hsettled1 rfl
  obtain ⟨s2, hrun2, hrest2, hawaits2, hsegments2, hframes2⟩ :=
    hawaits1.space units hrest1
  obtain ⟨p, hsegments1⟩ := hemits.segments
  refine ⟨s2, hemits.run.trans hrun2, hrest2, hawaits2, hframes2.trans hframes1, p, ?_⟩
  rw [hsegments2, hsegments1]
  rfl

-- ================================================================= operands

/-- A scan that has come behind an expression: it is where it would be
without it, and what it was cut into reads as the expression. -/
structure Scan.Passes (lexicon : Lexicon) (s : Scan) (e : Expr) (s' : Scan) : Prop where
  run : Scan.run lexicon s = Scan.run lexicon s'
  frames : s'.frames = s.frames
  complete : s'.Complete
  segments : ∃ segments e', s'.flush.segments = s.segments ++ segments
    ∧ Reads .standard segments e' none ∧ e'.unplaced = e.unplaced

/-- The same of the arguments of a call, whose commas are counted. -/
structure Scan.PassesAll (lexicon : Lexicon) (s : Scan) (es : List Expr) (s' : Scan) : Prop where
  run : Scan.run lexicon s = Scan.run lexicon s'
  frames : ∀ frame outer, s.frames = frame :: outer →
    ∃ commas, s'.frames = { frame with commas } :: outer
  complete : s'.Complete
  segments : ∃ segments es', s'.flush.segments = s.segments ++ segments
    ∧ ReadsAll .standard segments es' ∧ Expr.unplacedAll es' = Expr.unplacedAll es

/-- An expression is passed wherever an operand may begin, with anything
behind it that ends a literal. -/
def Expr.IsPassed (lexicon : Lexicon) (e : Expr) : Prop :=
  ∀ s k, Scan.Awaits s → StopsLiteral k → s.rest = e.letters ++ k →
    ∃ s', Scan.Passes lexicon s e s' ∧ s'.rest = k

/-- The same of the arguments of a call. -/
def Expr.ArePassed (lexicon : Lexicon) (es : List Expr) : Prop :=
  ∀ s frame outer k, Scan.Awaits s → s.frames = frame :: outer → frame.depth = 1 →
    StopsLiteral k → s.rest = lettersAll es ++ k →
    ∃ s', Scan.PassesAll lexicon s es s' ∧ s'.rest = k

namespace Expr

/-- A literal is passed, and is still collected behind it. -/
theorem IsPassed.literal {text : String} {position : Nat}
    (hq : IsQuantity (.standard resolution canonical) text.toList) :
    IsPassed (.standard resolution canonical) (.literal text position) := by
  intro s k hs hk hrest
  obtain ⟨s', hkeeps, hbehind⟩ := keeps_quantity hs hq hk hrest
  have hbuffer : s'.buffer = text.toList := by
    rw [hkeeps.buffer, hs.buffer, List.nil_append]
  have htrim : trim s'.buffer = text.toList := by
    rw [hbuffer]
    exact trim_eq_self hq.not_blank
  obtain ⟨start, hsegments⟩ := Scan.flush_segments_of_trim htrim hq.ne_nil
  rw [hkeeps.segments, String.ofList_toList] at hsegments
  -- Nothing has ended the literal yet, so it is in the buffer, and the last segment of the flush.
  refine ⟨s', ⟨hkeeps.run, hkeeps.frames, Or.inl ?_, ?_⟩, hbehind⟩
  · obtain ⟨c, tail, hcons⟩ := List.exists_cons_of_ne_nil hq.ne_nil
    have hc := hq.not_blank c (by rw [hcons]; exact List.mem_cons_self)
    rw [hbuffer, hcons, allBlank, List.all_cons, hc, Bool.false_and]
  · exact ⟨[⟨.literal, text, start⟩], .literal text start, hsegments, .literal rfl, rfl⟩

theorem IsPassed.binary {units : UnitRegistry} {operator : OperatorSymbol} {left right : Expr}
    {position : Nat}
    (hknown : SymbolTable.standard.operators.get? operator.symbol = some operator)
    (hleft : IsPassed (.of .standard units) left)
    (hright : IsPassed (.of .standard units) right) :
    IsPassed (.of .standard units) (.binary operator left right position) := by
  intro s k hs _ hrest
  simp only [letters, List.cons_append, List.append_assoc, List.nil_append] at hrest
  obtain ⟨s1, hopen, hrest1, hs1, p1, hsegments1⟩ := hs.leftParen units hrest
  obtain ⟨s2, hpassed2, hrest2⟩ := hleft s1 _ hs1 (by simp [StopsLiteral]) hrest1
  have hsettled2 : ∀ frame ∈ s2.frames, frame.Settled := by
    rw [hpassed2.frames]
    exact hs1.settled
  obtain ⟨s3, hrun3, hrest3, hs3, hframes3, p3, hsegments3⟩ :=
    hpassed2.complete.operator_spaced units hsettled2 hknown hrest2
  obtain ⟨s4, hpassed4, hrest4⟩ := hright s3 _ hs3 (by simp [StopsLiteral]) hrest3
  obtain ⟨s5, hclose, hrest5⟩ :=
    Scan.Emits.structural (.of .standard units) (c := ')') rfl hrest4
  -- In front of the operator there are the segments of the left operand, behind it those of the
  -- right one.
  obtain ⟨segmentsLeft, left', hcutLeft, hreadLeft, hplaceLeft⟩ := hpassed2.segments
  obtain ⟨segmentsRight, right', hcutRight, hreadRight, hplaceRight⟩ := hpassed4.segments
  obtain ⟨p5, hsegments5⟩ := hclose.segments
  have hframes5 : s5.frames = s.frames := by
    rw [hclose.frames, hpassed4.frames, hframes3, hpassed2.frames, hopen.frames]
    exact framesAfter_group hs.settled
  have hread : Reads .standard
      (⟨.leftParen, "(", p1⟩ :: (segmentsLeft ++ ⟨.operator, operator.symbol, p3⟩
        :: segmentsRight) ++ [⟨.rightParen, ")", p5⟩])
      (.binary operator left' right' p3) none :=
    .group rfl (.binary hreadLeft rfl hknown hreadRight (by simp) (by simp)) rfl
  refine ⟨s5, ⟨?_, hframes5, hclose.complete, _, _, ?_, hread, ?_⟩, hrest5⟩
  · rw [hopen.run, hpassed2.run, hrun3, hpassed4.run, hclose.run]
  · rw [Scan.flush_segments_of_nil hclose.buffer, hsegments5, hcutRight, hsegments3, hcutLeft,
      hsegments1]
    simp only [List.append_assoc, List.cons_append, List.nil_append]
    rfl
  · rw [unplaced, unplaced, hplaceLeft, hplaceRight]

theorem IsPassed.emptyCall {units : UnitRegistry} {function : FunctionSymbol} {position : Nat}
    (hknown : SymbolTable.standard.functions.get? function.name = some function) :
    IsPassed (.of .standard units) (.call function [] position) := by
  intro s k hs _ hrest
  simp only [letters, lettersAll, List.cons_append, List.append_assoc, List.nil_append] at hrest
  obtain ⟨s1, hrun1, hrest1, hs1, hframes1, p, p', hsegments1⟩ :=
    hs.callOpen units (standard_function_mem hknown) hrest
  obtain ⟨s2, hclose, hrest2⟩ :=
    Scan.Emits.structural (.of .standard units) (c := ')') rfl hrest1
  obtain ⟨p2, hsegments2⟩ := hclose.segments
  have hframes2 : s2.frames = s.frames := by
    rw [hclose.frames, hframes1]
    exact framesAfter_call rfl
  have hread : Reads .standard
      [⟨.function, function.name, p⟩, ⟨.leftParen, "(", p'⟩, ⟨.rightParen, ")", p2⟩]
      (.call function [] p) none := .emptyCall rfl hknown rfl rfl
  refine ⟨s2, ⟨hrun1.trans hclose.run, hframes2, hclose.complete, _, _, ?_, hread, rfl⟩, hrest2⟩
  rw [Scan.flush_segments_of_nil hclose.buffer, hsegments2,
    Scan.flush_segments_of_nil hs1.buffer, hsegments1, List.append_assoc]
  rfl

theorem IsPassed.call {units : UnitRegistry} {function : FunctionSymbol} {arguments : List Expr}
    {position : Nat}
    (hknown : SymbolTable.standard.functions.get? function.name = some function)
    (harguments : ArePassed (.of .standard units) arguments) :
    IsPassed (.of .standard units) (.call function arguments position) := by
  intro s k hs _ hrest
  simp only [letters, List.cons_append, List.append_assoc, List.nil_append] at hrest
  obtain ⟨s1, hrun1, hrest1, hs1, hframes1, p, p', hsegments1⟩ :=
    hs.callOpen units (standard_function_mem hknown) hrest
  obtain ⟨s2, hpassed2, hrest2⟩ :=
    harguments s1 _ _ (')' :: k) hs1 hframes1 rfl (by simp [StopsLiteral]) hrest1
  obtain ⟨s3, hclose, hrest3⟩ :=
    Scan.Emits.structural (.of .standard units) (c := ')') rfl hrest2
  obtain ⟨commas, hframes2⟩ := hpassed2.frames _ _ hframes1
  obtain ⟨segments, arguments', hcut, hread, hplace⟩ := hpassed2.segments
  obtain ⟨p3, hsegments3⟩ := hclose.segments
  have hframes3 : s3.frames = s.frames := by
    rw [hclose.frames, hframes2]
    exact framesAfter_call rfl
  have hreadCall : Reads .standard
      (⟨.function, function.name, p⟩ :: ⟨.leftParen, "(", p'⟩ :: segments
        ++ [⟨.rightParen, ")", p3⟩]) (.call function arguments' p) none :=
    .call rfl hknown rfl hread rfl
  refine ⟨s3, ⟨?_, hframes3, hclose.complete, _, _, ?_, hreadCall, ?_⟩, hrest3⟩
  · rw [hrun1, hpassed2.run, hclose.run]
  · rw [Scan.flush_segments_of_nil hclose.buffer, hsegments3, hcut, hsegments1]
    simp only [List.append_assoc, List.cons_append, List.nil_append]
    rfl
  · rw [unplaced, unplaced, hplace]

theorem ArePassed.one {lexicon : Lexicon} {e : Expr} (he : IsPassed lexicon e) :
    ArePassed lexicon [e] := by
  intro s frame outer k hs hframes hdepth hk hrest
  obtain ⟨s1, hpassed, hrest1⟩ := he s k hs hk hrest
  obtain ⟨segments, e', hcut, hread, hplace⟩ := hpassed.segments
  refine ⟨s1, ⟨hpassed.run, ?_, hpassed.complete, segments, [e'], hcut, .one hread, ?_⟩, hrest1⟩
  · intro frame outer hframes
    exact ⟨frame.commas, hpassed.frames.trans hframes⟩
  · rw [unplacedAll, unplacedAll, hplace]
    rfl

theorem ArePassed.more {units : UnitRegistry} {e next : Expr} {more : List Expr}
    (he : IsPassed (.of .standard units) e)
    (hmore : ArePassed (.of .standard units) (next :: more)) :
    ArePassed (.of .standard units) (e :: next :: more) := by
  intro s frame outer k hs hframes hdepth hk hrest
  simp only [lettersAll, List.append_assoc, List.cons_append] at hrest
  obtain ⟨s1, hpassed1, hrest1⟩ := he s _ hs (by simp [StopsLiteral]) hrest
  have hframes1 : s1.frames = frame :: outer := hpassed1.frames.trans hframes
  have hsettled1 : ∀ frame ∈ s1.frames, frame.Settled := by
    rw [hpassed1.frames]
    exact hs.settled
  obtain ⟨s2, hrun2, hrest2, hs2, hframes2, p, hsegments2⟩ :=
    Scan.comma_spaced units hsettled1 hframes1 hdepth hrest1
  obtain ⟨s3, hpassed3, hrest3⟩ := hmore s2 _ outer k hs2 hframes2 hdepth hk hrest2
  obtain ⟨segments, e', hcut, hread, hplace⟩ := hpassed1.segments
  obtain ⟨segmentsAll, es', hcutAll, hreadAll, hplaceAll⟩ := hpassed3.segments
  refine ⟨s3, ⟨?_, ?_, hpassed3.complete, _, _, ?_, .more (x := ⟨.comma, ",", p⟩) hread rfl
    hreadAll, ?_⟩, hrest3⟩
  · rw [hpassed1.run, hrun2, hpassed3.run]
  · intro frame' outer' hframes'
    rw [hframes] at hframes'
    obtain ⟨rfl, rfl⟩ := List.cons.inj hframes'
    obtain ⟨commas, hframes3⟩ := hpassed3.frames _ _ hframes2
    exact ⟨commas, hframes3⟩
  · rw [hcutAll, hsegments2, hcut]
    simp only [List.append_assoc, List.cons_append, List.nil_append]
  · rw [unplacedAll, unplacedAll, hplace, hplaceAll]

mutual

/-- A printed expression is passed. -/
theorem passed (e : Expr) (hover : e.Over .standard)
    (hq : e.OfQuantities (.standard resolution canonical)) :
    IsPassed (.standard resolution canonical) e := by
  match e with
  | .literal text position => exact .literal hq
  | .binary operator left right position =>
      obtain ⟨hknown, hleft, hright⟩ := hover
      exact .binary hknown (left.passed hleft hq.1) (right.passed hright hq.2)
  | .call function arguments position =>
      obtain ⟨hknown, hover⟩ := hover
      by_cases hempty : arguments = []
      · rw [hempty]
        exact .emptyCall hknown
      · exact .call hknown (allPassed arguments hempty hover hq)

/-- Printed arguments are passed. -/
theorem allPassed (es : List Expr) (hne : es ≠ []) (hover : OverAll .standard es)
    (hq : AllOfQuantities (.standard resolution canonical) es) :
    ArePassed (.standard resolution canonical) es := by
  match es with
  | [] => exact absurd rfl hne
  | [e] => exact .one (e.passed hover.1 hq.1)
  | e :: next :: more =>
      exact .more (e.passed hover.1 hq.1)
        (allPassed (next :: more) (List.cons_ne_nil next more) hover.2 hq.2)

end

end Expr

-- =========================================================== whole sources

/-- Positions do not count towards the limits. -/
theorem within_of_unplaced {e e' : Expr} (h : e'.unplaced = e.unplaced) {limits : Limits}
    {source : String} (hwithin : Tree.Within limits ⟨source, e⟩) :
    Tree.Within limits ⟨source, e'⟩ := by
  obtain ⟨hnodes, hdepth, hcalls⟩ := hwithin
  refine ⟨?_, ?_, ?_⟩
  · rw [Tree.count, ← Expr.count_unplaced, h, Expr.count_unplaced]
    exact hnodes
  · rw [Tree.depth, ← Expr.depth_unplaced, h, Expr.depth_unplaced]
    exact hdepth
  · rw [← Expr.callsWithin_unplaced, h, Expr.callsWithin_unplaced]
    exact hcalls

/-- A printed expression of quantities, standard operators and standard
functions is parsed to the expression again, up to positions, whatever the
units are converted by. -/
theorem ofSource_printed (resolution : Value) (canonical : String) (limits : Limits) {e : Expr}
    (hover : e.Over .standard) (hq : e.OfQuantities (.standard resolution canonical))
    (hlength : (e.printed.length : Int) ≤ limits.expressionLength)
    (hwithin : Tree.Within limits ⟨e.printed, e⟩) :
    ∃ child, Tree.ofSource? .standard (.standard resolution canonical) limits e.printed
        = .ok ⟨e.printed, child⟩
      ∧ child.unplaced = e.unplaced := by
  have hstart : Scan.Awaits { rest := e.printed.toList } :=
    ⟨rfl, rfl, by simp, rfl⟩
  have hrest : (Scan.mk 0 none e.printed.toList [] 0 [] []).rest = e.letters ++ [] := by
    rw [List.append_nil]
    exact String.toList_ofList
  obtain ⟨s', hpassed, hbehind⟩ :=
    e.passed hover hq _ [] hstart (by simp [StopsLiteral]) hrest
  obtain ⟨segments, child, hcut, hread, hplace⟩ := hpassed.segments
  have hscan : Scan.run (.standard resolution canonical) { rest := e.printed.toList } = .ok s' :=
    hpassed.run.trans (Scan.run_nil hbehind)
  have hlengthOk : limits.checkLength e.printed.length = .ok () := Limits.check_ok hlength
  have hsegments : Segment.ofSource? (.standard resolution canonical) limits e.printed
      = .ok segments := by
    unfold Segment.ofSource?
    simp only [hlengthOk, hscan, hcut, List.nil_append, bind, Except.bind, pure, Except.pure]
  -- The limits have been asked of the expression, and its places do not count.
  have htree : Tree.ofSegments? .standard limits e.printed segments = .ok ⟨e.printed, child⟩ :=
    Prescribed.ofSegments ⟨none, hread⟩ (within_of_unplaced hplace hwithin)
  refine ⟨child, ?_, hplace⟩
  unfold Tree.ofSource?
  rw [show Segment.ofSource? (.of .standard (.standard resolution canonical)) limits e.printed
    = .ok segments from hsegments]
  exact htree

/-- Signs, exponents and percent signs of both meanings, in a call and
around it. -/
theorem ofSource_printed_nested :
    ∃ e : Expr, e.printed = "(max(-1.5e+3cm, (50% % +.5)) - -2E4)"
      ∧ e.Over .standard ∧ e.OfQuantities (.standard (.number 96.0) "pt")
      ∧ (e.printed.length : Int) ≤ Limits.standard.expressionLength
      ∧ Tree.Within .standard ⟨e.printed, e⟩
      ∧ ∃ child, Tree.ofSource? .standard (.standard (.number 96.0) "pt") .standard e.printed
          = .ok ⟨e.printed, child⟩
        ∧ child.unplaced = e.unplaced := by
  obtain ⟨minus, hminus, hminusSymbol⟩ : ∃ minus,
      SymbolTable.standard.operators.get? "-" = some minus ∧ minus.symbol = "-" := ⟨_, rfl, rfl⟩
  obtain ⟨modulo, hmodulo, hmoduloSymbol⟩ : ∃ modulo,
      SymbolTable.standard.operators.get? "%" = some modulo ∧ modulo.symbol = "%" := ⟨_, rfl, rfl⟩
  obtain ⟨max, hmax, hmaxName⟩ : ∃ max,
      SymbolTable.standard.functions.get? "max" = some max ∧ max.name = "max" := ⟨_, rfl, rfl⟩
  let e : Expr := .binary minus
    (.call max [.literal "-1.5e+3cm" 0,
      .binary modulo (.literal "50%" 0) (.literal "+.5" 0) 0] 0) (.literal "-2E4" 0) 0
  have hprinted : e.printed = "(max(-1.5e+3cm, (50% % +.5)) - -2E4)" := by
    simp only [e, Expr.printed, Expr.letters, Expr.lettersAll, hminusSymbol, hmoduloSymbol,
      hmaxName]
    rfl
  have hover : e.Over .standard := by
    simp only [e, Expr.Over, Expr.OverAll, hminusSymbol, hmoduloSymbol, hmaxName, hminus, hmodulo,
      hmax, and_self]
  have hlengthy : IsNumber (['-'] ++ ((['1'] ++ '.' :: ['5']) ++ ('e' :: (['+'] ++ ['3'])))) :=
    .intro .minus (.pointed (by decide) (forall_mem_of_all (by decide)))
      (.power (Or.inl rfl) .plus (by decide))
  have hpercent : IsNumber ([] ++ (['5', '0'] ++ [])) := .intro .none (.whole (by decide)) .none
  have hfraction : IsNumber (['+'] ++ ('.' :: ['5'] ++ [])) :=
    .intro .plus (.point (by decide)) .none
  have hlarge : IsNumber (['-'] ++ (['2'] ++ 'E' :: ([] ++ ['4']))) :=
    .intro .minus (.whole (by decide)) (.power (Or.inr rfl) .none (by decide))
  have hq : e.OfQuantities (.standard (.number 96.0) "pt") :=
    ⟨⟨@IsQuantity.ofUnit _ _ "cm" hlengthy rfl,
      ⟨@IsQuantity.ofUnit _ _ "%" hpercent rfl, .plain hfraction⟩, trivial⟩, .plain hlarge⟩
  have hwithin : Tree.Within .standard ⟨e.printed, e⟩ := by
    refine ⟨?_, ?_, ?_⟩
    · simp [e, Tree.count, Expr.count, Expr.countAll, Limits.standard]
    · simp [e, Tree.depth, Expr.depth, Expr.depthAll, Limits.standard]
    · simp only [e, Expr.callsWithin_binary, Expr.callsWithin_call, Expr.callsWithin_literal,
        Expr.AllCallsWithin, List.forall_mem_cons, and_true, true_and]
      exact ⟨by simp [Limits.standard], by simp⟩
  have hlength : (e.printed.length : Int) ≤ Limits.standard.expressionLength := by
    rw [hprinted]
    decide
  exact ⟨e, hprinted, hover, hq, hlength, hwithin,
    ofSource_printed (.number 96.0) "pt" .standard hover hq hlength hwithin⟩

end UnitCalc
