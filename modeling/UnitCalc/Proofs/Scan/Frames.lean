/-
The calls that a scan is inside of.

A scan keeps a frame for every function it comes by and counts parentheses and
commas on the innermost one, whether they are a call's or a group's. Of the
segments alone a call is open if its parenthesis has no partner yet
(`OpenCall`), and what is the call's own can be counted among the segments
behind that. The two agree wherever a parenthesis opens right behind every
function, so for every source that has a postfix order
(`Segment.ofSource_frames`).

# The invariant

It takes the segments apart at the calls that are open, with a frame for each
(`Reflects`): behind the parenthesis of every one of them there is something
whose parentheses close in turn and that has no open call in it. One more
segment goes on with the innermost call, begins another, or closes it; what is
then left inside of the call around it is as good as an operand there
(`Reflects.append_call`).

Right behind a function there is a frame already but no call yet, so the
invariant of a whole run has a second case for that place (`Framed`). The run
is followed by induction on the segments, taken from behind, because frames
are a fold over them (`framed_of_called`).

# States and segments

A source that has a postfix order is known by all of its segments, while a
state of the scan has only some of them. They are the first ones, since no
segment is taken back (`Proofs/Scan/Growing`), and that each function has its
parenthesis holds of every front part as well.
-/
import UnitCalc.Config.Basic
import UnitCalc.Proofs.Reduction.Enclosed
import UnitCalc.Proofs.Scan.Growing
import UnitCalc.Proofs.Scan.Words

namespace UnitCalc

-- ================================================================ open calls

/-- A call that is open behind some segments: what stands in front of it, its
function, and what has come behind its parenthesis. -/
structure OpenCall (segments before : List Segment) (f : Segment) (inside : List Segment) :
    Prop where
  name : f.kind = .function
  parts : ∃ o, o.kind = .leftParen ∧ segments = before ++ f :: o :: inside
  /-- Its parenthesis has not been closed. -/
  inTurn : InTurn 0 inside

/-- The open call that all the others are around of. -/
structure InnermostCall (segments before : List Segment) (f : Segment) (inside : List Segment) :
    Prop where
  isOpen : OpenCall segments before f inside
  innermost : ∀ {before' f' inside'}, OpenCall segments before' f' inside' →
    before'.length ≤ before.length

/-- How many commas there are inside of a call that are its own. -/
def commasIn (inside : List Segment) : Nat :=
  (level 0 inside).countP (·.kind == .comma)

/-- Whether a frame says of a call what its segments do. -/
structure Frame.Reads (symbols : SymbolTable) (frame : Frame) (f : Segment)
    (inside : List Segment) : Prop where
  function : symbols.functions.get? f.text = some frame.function
  commas : frame.commas = commasIn inside
  /-- The parenthesis of the call is counted as well. -/
  depth : frame.depth + closings inside = 1 + openings inside

/-- The argument that is being read is the one behind as many others as the
frame has commas. -/
theorem Frame.Reads.length_arguments {symbols : SymbolTable} {frame : Frame} {f : Segment}
    {inside : List Segment} (h : frame.Reads symbols f inside) :
    (arguments inside).length = frame.commas + 1 := by
  rw [h.commas]
  by_cases hinside : inside = []
  · rw [hinside]
    rfl
  · rw [UnitCalc.length_arguments hinside, argumentCount, if_neg hinside, Nat.add_comm]
    rfl

/-- Whether no call is open behind some segments. -/
def NoCall (segments : List Segment) : Prop :=
  ∀ before f inside, ¬ OpenCall segments before f inside

variable {s before before' inside inside' : List Segment} {f f' o c x : Segment}

/-- A call that is open behind one more segment has just begun, or it was open
before. -/
theorem OpenCall.of_concat (h : OpenCall (s ++ [x]) before f inside) :
    (x.kind = .leftParen ∧ lastKind s = some .function)
      ∨ ∃ inside', inside = inside' ++ [x] ∧ OpenCall s before f inside' := by
  obtain ⟨hf, ⟨o, ho, hsplit⟩, hturn⟩ := h
  rcases List.eq_nil_or_concat inside with rfl | ⟨inside', y, rfl⟩
  · left
    have hpair : before ++ [f, o] = (before ++ [f]) ++ [o] := by simp
    rw [hpair] at hsplit
    obtain ⟨rfl, hx⟩ := List.append_inj' hsplit rfl
    obtain rfl := List.singleton_inj.1 hx
    exact ⟨ho, by rw [lastKind_concat, hf]⟩
  · right
    rw [List.concat_eq_append] at hsplit hturn ⊢
    rw [← List.cons_append, ← List.cons_append, ← List.append_assoc] at hsplit
    obtain ⟨rfl, hx⟩ := List.append_inj' hsplit rfl
    obtain rfl := List.singleton_inj.1 hx
    exact ⟨inside', rfl, hf, ⟨o, ho, rfl⟩, hturn.left⟩

/-- Where a call may be open behind a function and its parenthesis: in front of
them, there, or inside. -/
theorem OpenCall.of_append_call (hf : f.kind = .function) (ho : o.kind = .leftParen)
    (h : OpenCall (before ++ f :: o :: inside) before' f' inside') :
    (∃ between, OpenCall before before' f' between)
      ∨ before' = before ∧ inside' = inside
      ∨ ∃ between, OpenCall inside between f' inside' := by
  obtain ⟨hf', ⟨o', ho', hsplit⟩, hturn⟩ := h
  -- The one list is split in two ways; the function of the other call stands before, at or behind
  -- this one.
  rcases List.append_eq_append_iff.1 hsplit with ⟨between, rfl, hbehind⟩ | ⟨between, rfl, hbehind⟩
  · rcases List.cons_eq_append_iff.1 hbehind with ⟨rfl, hsame⟩ | ⟨between, rfl, hrest⟩
    · obtain ⟨-, hsame⟩ := List.cons.inj hsame
      right; left
      exact ⟨List.append_nil before, (List.cons.inj hsame).2⟩
    · rcases List.cons_eq_append_iff.1 hrest with ⟨rfl, hsame⟩ | ⟨between, rfl, hwithin⟩
      · obtain ⟨rfl, -⟩ := List.cons.inj hsame
        rw [hf'] at ho
        cases ho
      · right; right
        exact ⟨between, hf', ⟨o', ho', hwithin⟩, hturn⟩
  · rcases List.cons_eq_append_iff.1 hbehind with ⟨rfl, hsame⟩ | ⟨between, rfl, hrest⟩
    · obtain ⟨-, hsame⟩ := List.cons.inj hsame
      right; left
      exact ⟨(List.append_nil before').symm, (List.cons.inj hsame).2.symm⟩
    · rcases List.cons_eq_append_iff.1 hrest with ⟨rfl, hsame⟩ | ⟨between, rfl, rfl⟩
      · obtain ⟨rfl, -⟩ := List.cons.inj hsame
        rw [hf] at ho'
        cases ho'
      · left
        exact ⟨between, hf', ⟨o', ho', rfl⟩, hturn.left⟩

-- ================================================================== no calls

namespace NoCall

theorem nil : NoCall [] := by
  intro before f inside h
  obtain ⟨o, -, hsplit⟩ := h.parts
  simp at hsplit

theorem concat (h : NoCall s) (hx : x.kind = .leftParen → lastKind s ≠ some .function) :
    NoCall (s ++ [x]) := by
  intro before f inside hopen
  rcases hopen.of_concat with ⟨hparen, hlast⟩ | ⟨inside', -, hearlier⟩
  · exact hx hparen hlast
  · exact h before f inside' hearlier

/-- A call that is closed leaves no call open. -/
theorem append_call (h : NoCall s) (hf : f.kind = .function) (ho : o.kind = .leftParen)
    (hinside : NoCall inside) (hbalanced : Balanced inside) (hc : c.kind = .rightParen) :
    NoCall (s ++ f :: o :: (inside ++ [c])) := by
  intro before f' inside' hopen
  have hall : s ++ f :: o :: (inside ++ [c]) = (s ++ f :: o :: inside) ++ [c] := by simp
  rw [hall] at hopen
  rcases hopen.of_concat with ⟨hparen, -⟩ | ⟨inside', rfl, hearlier⟩
  · rw [hc] at hparen
    cases hparen
  · rcases hearlier.of_append_call hf ho with ⟨between, hfront⟩ | ⟨-, rfl⟩ | ⟨between, hwithin⟩
    · exact h before f' between hfront
    · -- It is this call, and its parenthesis has just been closed.
      have hwhole := hopen.inTurn.whole
      have heven := hbalanced.even
      simp only [closings_append, openings_append, closings_cons, openings_cons, closings_nil,
        openings_nil, hc, ↓reduceIte, reduceCtorEq] at hwhole
      omega
    · exact hinside between f' inside' hwithin

end NoCall

-- ==================================================================== frames

/-- A comma is a call's own where no group is open. -/
theorem commasIn_concat (h : InTurn 0 inside) (x : Segment) :
    commasIn (inside ++ [x]) = commasIn inside
      + if x.kind = .comma ∧ closings inside = openings inside then 1 else 0 := by
  have hwhole := h.whole
  unfold commasIn
  rw [h.level_append, List.countP_append, Nat.zero_add] at *
  congr 1
  by_cases hdepth : closings inside = openings inside
  · rw [hdepth, Nat.sub_self]
    cases hx : x.kind <;> simp [level, hx]
  · have hdeeper : openings inside - closings inside ≠ 0 := by omega
    cases hx : x.kind <;> simp [level, hx, hdepth, hdeeper]

/-- A call that is closed has no commas of another's. -/
theorem commasIn_append_call (h : InTurn 0 inside) (hf : f.kind = .function)
    (ho : o.kind = .leftParen) (hinside : Balanced inside') (hc : c.kind = .rightParen) :
    commasIn (inside ++ f :: o :: (inside' ++ [c])) = commasIn inside := by
  have hdeeper : ∀ depth, level (depth + 1) (inside' ++ [c]) = [] := by
    intro depth
    rw [(InTurn.of_balanced hinside _).level_append,
      (InTurn.of_balanced hinside depth).level_eq_nil, hinside.even, Nat.add_sub_cancel]
    simp [level, hc]
  unfold commasIn
  rw [h.level_append, List.countP_append]
  -- Whether a group is open or not, the call opens one more around all that is its own.
  cases hdepth : 0 + openings inside - closings inside with
  | zero => simp [level, hf, ho, hdeeper 0]
  | succ depth => simp [level, hf, ho, hdeeper (depth + 1)]

namespace Frame.Reads

variable {symbols : SymbolTable} {frame : Frame}

/-- An open call is at least one parenthesis deep. -/
theorem one_le_depth (h : frame.Reads symbols f inside) (hturn : InTurn 0 inside) :
    1 ≤ frame.depth := by
  have hdepth := h.depth
  have hwhole := hturn.whole
  omega

/-- One more segment inside of the call. -/
theorem concat {frame' : Frame} (h : frame.Reads symbols f inside) (hturn : InTurn 0 inside)
    (hfunction : frame'.function = frame.function)
    (hcommas : frame'.commas
      = frame.commas + if x.kind = .comma ∧ frame.depth = 1 then 1 else 0)
    (hdepth : (frame'.depth + if x.kind = .rightParen then 1 else 0)
      = frame.depth + if x.kind = .leftParen then 1 else 0) :
    frame'.Reads symbols f (inside ++ [x]) := by
  have hdeep := h.depth
  have hlevel : frame.depth = 1 ↔ closings inside = openings inside := by omega
  refine ⟨by rw [hfunction, h.function], ?_, ?_⟩
  · simp only [commasIn_concat hturn, ← h.commas, hcommas, hlevel]
  · simp only [closings_append, openings_append, closings_cons, openings_cons, closings_nil,
      openings_nil]
    omega

/-- A call inside that is closed is not counted. -/
theorem append_call {g : Segment} (h : frame.Reads symbols g inside) (hturn : InTurn 0 inside)
    (hf : f.kind = .function) (ho : o.kind = .leftParen) (hinside : Balanced inside')
    (hc : c.kind = .rightParen) : frame.Reads symbols g (inside ++ f :: o :: (inside' ++ [c])) := by
  refine ⟨h.function, ?_, ?_⟩
  · rw [commasIn_append_call hturn hf ho hinside hc, h.commas]
  · have hdepth := h.depth
    have heven := hinside.even
    simp only [closings_append, openings_append, closings_cons, openings_cons, closings_nil,
      openings_nil, hf, ho, hc, ↓reduceIte, reduceCtorEq]
    omega

end Frame.Reads

/-- Frames for the calls that are open behind some segments, the innermost
first. -/
inductive Reflects (symbols : SymbolTable) : List Frame → List Segment → Prop
  | outside {s : List Segment} (noCall : NoCall s) : Reflects symbols [] s
  | call {frame : Frame} {frames : List Frame} {before inside : List Segment} {f o : Segment}
      (around : Reflects symbols frames before) (name : f.kind = .function)
      (opens : o.kind = .leftParen) (inTurn : InTurn 0 inside) (noCall : NoCall inside)
      (reads : frame.Reads symbols f inside) :
      Reflects symbols (frame :: frames) (before ++ f :: o :: inside)

namespace Reflects

variable {symbols : SymbolTable} {frame : Frame} {frames : List Frame}

/-- A call that is closed changes nothing for the calls around it. -/
theorem append_call (h : Reflects symbols frames s) (hf : f.kind = .function)
    (ho : o.kind = .leftParen) (hinside : NoCall inside) (hbalanced : Balanced inside)
    (hc : c.kind = .rightParen) : Reflects symbols frames (s ++ f :: o :: (inside ++ [c])) := by
  -- If a call is around, the closed one is no more to it than a name and a group.
  cases h with
  | outside hs => exact .outside (hs.append_call hf ho hinside hbalanced hc)
  | @call frame frames before inside₀ g p haround hg hp hturn hnoCall hreads =>
      have hname : Balanced [f] := .singleton (by simp [hf]) (by simp [hf])
      have hclosed : Balanced (f :: o :: (inside ++ [c])) := hname.append (hbalanced.wrap ho hc)
      rw [List.append_assoc, List.cons_append, List.cons_append]
      exact .call haround hg hp (hturn.append hclosed)
        (hnoCall.append_call hf ho hinside hbalanced hc)
        (hreads.append_call hturn hf ho hbalanced hc)

theorem one_le_depth (h : Reflects symbols (frame :: frames) s) : 1 ≤ frame.depth := by
  cases h with
  | call _ _ _ hturn _ hreads => exact hreads.one_le_depth hturn

/-- The first frame is that of the innermost call. -/
theorem innermost (h : Reflects symbols (frame :: frames) s) :
    ∃ before f inside, InnermostCall s before f inside ∧ frame.Reads symbols f inside := by
  cases h with
  | @call _ _ before inside f o haround hf ho hturn hnoCall hreads =>
      have hopen : OpenCall (before ++ f :: o :: inside) before f inside :=
        ⟨hf, ⟨o, ho, rfl⟩, hturn⟩
      refine ⟨before, f, inside, ⟨hopen, fun hother => ?_⟩, hreads⟩
      rcases hother.of_append_call hf ho with ⟨between, hfront⟩ | ⟨rfl, -⟩ | ⟨between, hwithin⟩
      · obtain ⟨o', -, rfl⟩ := hfront.parts
        simp
      · exact Nat.le_refl _
      · exact absurd hwithin (hnoCall _ _ _)

/-- One more segment inside of the innermost call. -/
theorem extend {frame' : Frame} (h : Reflects symbols (frame :: frames) s)
    (hlast : lastKind s ≠ some .function) (hclose : x.kind = .rightParen → frame.depth ≠ 1)
    (hfunction : frame'.function = frame.function)
    (hcommas : frame'.commas
      = frame.commas + if x.kind = .comma ∧ frame.depth = 1 then 1 else 0)
    (hdepth : (frame'.depth + if x.kind = .rightParen then 1 else 0)
      = frame.depth + if x.kind = .leftParen then 1 else 0) :
    Reflects symbols (frame' :: frames) (s ++ [x]) := by
  cases h with
  | @call _ _ before inside f o haround hf ho hturn hnoCall hreads =>
      have hnoCall' : NoCall (inside ++ [x]) := hnoCall.concat fun _ hinside => by
        have hall : before ++ f :: o :: inside = (before ++ [f, o]) ++ inside := by simp
        exact hlast (hall ▸ lastKind_append _ hinside)
      have hturn' : InTurn 0 (inside ++ [x]) := by
        refine hturn.concat ?_
        have hdeep := hreads.depth
        have hone := hreads.one_le_depth hturn
        simp only [closings_append, openings_append, closings_cons, openings_cons, closings_nil,
          openings_nil]
        by_cases hx : x.kind = .rightParen
        · have hdeeper := hclose hx
          simp only [hx, ↓reduceIte, reduceCtorEq]
          omega
        · simp only [hx, ↓reduceIte]
          omega
      rw [List.append_assoc, List.cons_append, List.cons_append]
      exact .call haround hf ho hturn' hnoCall' (hreads.concat hturn hfunction hcommas hdepth)

/-- The parenthesis of the innermost call is closed. -/
theorem close (h : Reflects symbols (frame :: frames) s) (hc : c.kind = .rightParen)
    (hdepth : frame.depth = 1) : Reflects symbols frames (s ++ [c]) := by
  cases h with
  | @call _ _ before inside f o haround hf ho hturn hnoCall hreads =>
      have hdeep := hreads.depth
      -- Only its own parenthesis is open, so what is inside is balanced.
      have hbalanced : Balanced inside := by
        refine ⟨fun front back hsplit => ?_, by omega⟩
        have hfront := hturn front back hsplit
        omega
      rw [List.append_assoc, List.cons_append, List.cons_append]
      exact haround.append_call hf ho hnoCall hbalanced hc

/-- One more segment that is no function. -/
theorem step (h : Reflects symbols frames s) (hlast : lastKind s ≠ some .function)
    (hx : x.kind ≠ .function) :
    Reflects symbols (Scan.framesAfter symbols x.kind x.text frames) (s ++ [x]) := by
  cases frames with
  | nil =>
      have hnone : Scan.framesAfter symbols x.kind x.text [] = [] := by
        cases hkind : x.kind <;> first | exact absurd hkind hx | rfl
      rw [hnone]
      cases h with
      | outside hnoCall => exact .outside (hnoCall.concat fun _ => hlast)
  | cons frame frames =>
      cases hkind : x.kind with
      | function => exact absurd hkind hx
      | literal => exact h.extend hlast (by simp [hkind]) rfl (by simp [hkind]) (by simp [hkind])
      | operator => exact h.extend hlast (by simp [hkind]) rfl (by simp [hkind]) (by simp [hkind])
      | leftParen => exact h.extend hlast (by simp [hkind]) rfl (by simp [hkind]) (by simp [hkind])
      | comma =>
          by_cases hdepth : frame.depth = 1
          · simp only [Scan.framesAfter, hdepth, ↓reduceIte]
            exact h.extend hlast (by simp [hkind]) rfl (by simp [hkind, hdepth])
              (by simp [hkind, hdepth])
          · simp only [Scan.framesAfter, hdepth, ↓reduceIte]
            exact h.extend hlast (by simp [hkind]) rfl (by simp [hdepth]) (by simp [hkind])
      | rightParen =>
          have hzero : frame.depth ≠ 0 := Nat.ne_of_gt h.one_le_depth
          by_cases hdepth : frame.depth = 1
          · simpa [Scan.framesAfter, hdepth] using h.close hkind hdepth
          · have hframes : Scan.framesAfter symbols .rightParen x.text (frame :: frames)
                = { frame with depth := frame.depth - 1 } :: frames := by
              simp [Scan.framesAfter, hdepth, hzero]
            rw [hframes]
            refine h.extend hlast (fun _ => hdepth) rfl (by simp [hkind]) ?_
            simp only [hkind, ↓reduceIte, reduceCtorEq]
            omega

end Reflects

-- ====================================================================== runs

/-- The frames behind some segments. A function has its frame before it has its
parenthesis. -/
inductive Framed (symbols : SymbolTable) : List Frame → List Segment → Prop
  | reading {frames : List Frame} {s : List Segment} (reflects : Reflects symbols frames s)
      (unnamed : lastKind s ≠ some .function) : Framed symbols frames s
  | named {frames : List Frame} {before : List Segment} {f : Segment} {function : FunctionSymbol}
      (reflects : Reflects symbols frames before) (name : f.kind = .function)
      (found : symbols.functions.get? f.text = some function) :
      Framed symbols ({ function } :: frames) (before ++ [f])

/-- Every segment finds the frames so and leaves them so. -/
theorem Framed.step {symbols : SymbolTable} {frames : List Frame} (h : Framed symbols frames s)
    (hcalled : lastKind s = some .function → x.kind = .leftParen)
    (hfound : x.kind = .function → ∃ function, symbols.functions.get? x.text = some function) :
    Framed symbols (Scan.framesAfter symbols x.kind x.text frames) (s ++ [x]) := by
  cases h with
  | @named frames before f function hreflects hf hget =>
      have hx : x.kind = .leftParen := hcalled (by rw [lastKind_concat, hf])
      refine .reading ?_ (by rw [lastKind_concat, hx]; simp)
      rw [hx, List.append_assoc]
      exact .call hreflects hf hx (.nil 0) .nil ⟨hget, rfl, rfl⟩
  | reading hreflects hlast =>
      by_cases hx : x.kind = .function
      · obtain ⟨function, hget⟩ := hfound hx
        rw [hx]
        simp only [Scan.framesAfter, hget]
        exact .named hreflects hx hget
      · exact .reading (hreflects.step hlast hx) (by simpa using hx)

/-- Behind every part of some segments whose functions have their parentheses,
the frames are those of the calls that are open. -/
theorem framed_of_called {symbols : SymbolTable} {segments : List Segment}
    (hcalled : Called segments)
    (hfound : ∀ x ∈ segments, x.kind = .function →
      ∃ function, symbols.functions.get? x.text = some function) :
    ∀ {s : List Segment}, s <+: segments → Framed symbols (Scan.framesOf symbols s) s := by
  intro s
  induction s using List.reverseRecOn with
  | nil => exact fun _ => .reading (.outside .nil) (by simp [lastKind])
  | append_singleton s x ih =>
      intro hprefix
      obtain ⟨after, rfl⟩ := hprefix
      rw [Scan.framesOf_concat]
      refine (ih ⟨x :: after, by simp⟩).step (fun hlast => ?_) (hfound x (by simp))
      by_contra hx
      rw [List.append_assoc] at hcalled
      exact hcalled.lastKind_ne _ (by simpa using hx) hlast

namespace Segment

variable {symbols : SymbolTable} {units : UnitRegistry} {limits : Limits} {source : String}
  {segments : List Segment}

/-- The functions of a source are registered. -/
theorem function_of_ofSource
    (h : Segment.ofSource? (.of symbols units) limits source = .ok segments) {x : Segment}
    (hx : x ∈ segments) (hfunction : x.kind = .function) :
    ∃ function, symbols.functions.get? x.text = some function := by
  obtain ⟨scanned, hrun, rfl⟩ := run_of_ofSource h
  have hstands := Scan.flush_words (Scan.run_words hrun) x hx (Or.inl hfunction)
  exact hstands.function_iff.1 hfunction

/-- In every state of a scan whose segments have their calls, the frames are
those of the calls that are open. -/
theorem framed_of_ofSource
    (h : Segment.ofSource? (.of symbols units) limits source = .ok segments)
    (hcalled : Called segments) {n : Nat} {s : Scan}
    (hs : Scan.after? (.of symbols units) { rest := source.toList } n = some s) :
    Framed symbols s.frames s.segments := by
  obtain ⟨scanned, hrun, hsegments⟩ := run_of_ofSource h
  rw [Scan.run_after? hs] at hrun
  have hprefix := Scan.segments_prefix_of_run hrun
  rw [hsegments] at hprefix
  rw [(Scan.traced source.toList hs).frames]
  exact framed_of_called hcalled (fun x hx hname => function_of_ofSource h hx hname) hprefix

/-- Whatever the symbols, the units and the limits: where the segments of a
source have a postfix order, every state of the scan that does not stand right
behind a function reads an argument exactly if a call is open, and then the
argument of the innermost one that its commas say. -/
theorem ofSource_frames
    (h : Segment.ofSource? (.of symbols units) limits source = .ok segments) {grammar : Grammar}
    {instructions : List Instruction}
    (hreduced : Instruction.ofSegments? grammar segments = .ok instructions) {n : Nat} {s : Scan}
    (hs : Scan.after? (.of symbols units) { rest := source.toList } n = some s) :
    (lastKind s.segments = some .function → s.argumentFrame? = none)
      ∧ (lastKind s.segments ≠ some .function →
        ((∃ frame, s.argumentFrame? = some frame)
            ↔ ∃ before f inside, OpenCall s.segments before f inside)
          ∧ ∀ frame, s.argumentFrame? = some frame →
            ∃ before f inside, InnermostCall s.segments before f inside
              ∧ frame.Reads symbols f inside
              ∧ (arguments inside).length = frame.commas + 1) := by
  have hframed := framed_of_ofSource h (ofSegments_carries hreduced).1.called hs
  unfold Scan.argumentFrame?
  -- From here on it does not matter that this is a state of a scan.
  generalize s.frames = frames at hframed
  generalize s.segments = behind at hframed
  cases hframed with
  | named _ hf _ =>
      refine ⟨fun _ => rfl, fun hlast => absurd ?_ hlast⟩
      rw [lastKind_concat, hf]
  | reading hreflects hlast =>
      refine ⟨fun hfunction => absurd hfunction hlast, fun _ => ?_⟩
      cases frames with
      | nil =>
          cases hreflects with
          | outside hnoCall =>
              refine ⟨iff_of_false (by simp) ?_, by simp⟩
              intro ⟨before, f, inside, hopen⟩
              exact hnoCall before f inside hopen
      | cons frame outer =>
          obtain ⟨before, f, inside, hinnermost, hreads⟩ := hreflects.innermost
          have hfirst : (frame :: outer).head?.filter (fun frame => 1 ≤ frame.depth)
              = some frame := by
            rw [List.head?_cons, Option.filter_some, decide_eq_true hreflects.one_le_depth]
            rfl
          rw [hfirst]
          refine ⟨iff_of_true ⟨frame, rfl⟩ ⟨before, f, inside, hinnermost.isOpen⟩, ?_⟩
          intro frame' hframe
          obtain rfl := Option.some.inj hframe
          exact ⟨before, f, inside, hinnermost, hreads, hreads.length_arguments⟩

/-- The segments of `max(1, (2 + abs(3)) * 4)`. -/
def groupedCallSegments : List Segment :=
  [⟨.function, "max", 0⟩, ⟨.leftParen, "(", 3⟩, ⟨.literal, "1", 4⟩, ⟨.comma, ",", 5⟩,
   ⟨.leftParen, "(", 7⟩, ⟨.literal, "2", 8⟩, ⟨.operator, "+", 10⟩, ⟨.function, "abs", 12⟩,
   ⟨.leftParen, "(", 15⟩, ⟨.literal, "3", 16⟩, ⟨.rightParen, ")", 17⟩, ⟨.rightParen, ")", 18⟩,
   ⟨.operator, "*", 20⟩, ⟨.literal, "4", 22⟩, ⟨.rightParen, ")", 23⟩]

/-- Behind a call in a group, the second argument of the call around them is
read. -/
theorem ofSource_frames_nested :
    Segment.ofSource? (.of .standard ({} : Config).units) .standard "max(1, (2 + abs(3)) * 4)"
        = .ok groupedCallSegments
      ∧ (∃ instructions, Instruction.ofSegments?
          ⟨SymbolTable.standard.operators, .standard, "max(1, (2 + abs(3)) * 4)"⟩
            groupedCallSegments = .ok instructions)
      ∧ ∃ s frame, Scan.after? (.of .standard ({} : Config).units)
          { rest := "max(1, (2 + abs(3)) * 4)".toList } 14 = some s
        ∧ s.position = 18 ∧ s.argumentFrame? = some frame ∧ frame.commas = 1 ∧ frame.depth = 2
        ∧ ∃ before f inside, InnermostCall s.segments before f inside
          ∧ frame.Reads .standard f inside ∧ (arguments inside).length = 2 := by
  have hsegments : Segment.ofSource? (.of .standard ({} : Config).units) .standard
      "max(1, (2 + abs(3)) * 4)" = .ok groupedCallSegments := by
    decide +kernel
  have hreduced : (Instruction.ofSegments?
      ⟨SymbolTable.standard.operators, .standard, "max(1, (2 + abs(3)) * 4)"⟩
        groupedCallSegments).toOption.isSome := by
    decide +kernel
  have hstate : ((Scan.after? (.of .standard ({} : Config).units)
      { rest := "max(1, (2 + abs(3)) * 4)".toList } 14).bind fun s =>
        s.argumentFrame?.map fun frame => (s.position, frame.commas, frame.depth))
      = some (18, 1, 2) := by
    decide +kernel
  obtain ⟨instructions, hsome⟩ := Option.isSome_iff_exists.1 hreduced
  have hinstructions := toOption_eq_some.1 hsome
  obtain ⟨s, hs, hread⟩ := Option.bind_eq_some_iff.1 hstate
  obtain ⟨frame, hframe, hvalues⟩ := Option.map_eq_some_iff.1 hread
  simp only [Prod.mk.injEq] at hvalues
  obtain ⟨hposition, hcommas, hdepth⟩ := hvalues
  obtain ⟨hnone, hopen⟩ := ofSource_frames hsegments hinstructions hs
  have hlast : lastKind s.segments ≠ some .function := by
    intro hfunction
    rw [hnone hfunction] at hframe
    cases hframe
  obtain ⟨before, f, inside, hinnermost, hreads, harguments⟩ := (hopen hlast).2 frame hframe
  rw [hcommas] at harguments
  exact ⟨hsegments, ⟨instructions, hinstructions⟩, s, frame, hs, hposition, hframe, hcommas, hdepth,
    before, f, inside, hinnermost, hreads, harguments⟩

end Segment

end UnitCalc
