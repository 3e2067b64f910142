/-
Open parentheses, told from the left.

`bracketsBehind` says what one segment does to the parentheses that are open in
front of it, and where it may not stand because of them: a comma or a closing
parenthesis needs an open one, and neither ends an argument of nothing.
Operands and operators play no part in this, so much that nests is no sentence.

Being in order is all that is missing (`InOrder.sentence`).

# The invariant

The proof takes the segments in turn and keeps hold of a left context: every
open parenthesis with what stands in front of it and, in a call, with the
arguments that are complete (`Context`). Behind the last one an expression has
begun: it is empty, ends in an operator, or is a sentence. What is due and which
parentheses are open say together which of these it is (`Reached`).

# One segment

Where an operand is due, a segment completes it, or opens a parenthesis and with
it a context (`Reached.step_operand`). Behind an operand, a segment continues
the expression, or it belongs to the innermost context and completes an argument
or the operand that the parenthesis has begun (`Reached.step_operator`). From
single segments it goes to all of them by induction on the list
(`Reached.steps`), and with nothing open at the end the context is empty and the
sentence is everything.
-/
import UnitCalc.Proofs.Grammar.Sentence

namespace UnitCalc

-- ======================================================== open parentheses

/-- The parentheses that are open behind a segment, the innermost first,
each with whether it is a call's. -/
def bracketsBehind (previous : Option SegmentKind) (opened : List Bool) :
    SegmentKind → Option (List Bool)
  | .leftParen => some ((previous == some .function) :: opened)
  | .rightParen =>
    match opened with
    | [] => none
    | _ :: outer => if previous = some .comma then none else some outer
  | .comma =>
    match opened with
    | true :: _ =>
      if previous = some .leftParen ∨ previous = some .comma then none else some opened
    | _ => none
  | _ => some opened

/-- The parentheses that are open behind some segments. -/
def bracketsAfter : Option SegmentKind → List Bool → List Segment → Option (List Bool)
  | _, opened, [] => some opened
  | previous, opened, x :: more =>
    (bracketsBehind previous opened x.kind).bind fun next => bracketsAfter (some x.kind) next more

/-- Whether every parenthesis has its partner, every comma its call and
every argument something in it. -/
def Nests (segments : List Segment) : Prop :=
  bracketsAfter none [] segments = some []

/-- The open parentheses at the end can be computed. -/
instance (segments : List Segment) : Decidable (Nests segments) :=
  inferInstanceAs (Decidable (_ = _))

theorem bracketsBehind_rightParen {previous : Option SegmentKind} {opened outer : List Bool}
    (h : bracketsBehind previous opened .rightParen = some outer) :
    ∃ call, opened = call :: outer ∧ previous ≠ some .comma := by
  unfold bracketsBehind at h
  cases opened with
  | nil => cases h
  | cons call opened =>
      by_cases hprevious : previous = some .comma
      · simp [hprevious] at h
      · simp only [hprevious, ↓reduceIte, Option.some.injEq] at h
        exact ⟨call, by rw [h], hprevious⟩

theorem bracketsBehind_comma {previous : Option SegmentKind} {opened next : List Bool}
    (h : bracketsBehind previous opened .comma = some next) :
    next = opened ∧ (∃ outer, opened = true :: outer)
      ∧ previous ≠ some .leftParen ∧ previous ≠ some .comma := by
  unfold bracketsBehind at h
  match opened with
  | [] => cases h
  | false :: _ => cases h
  | true :: outer =>
      by_cases hprevious : previous = some .leftParen ∨ previous = some .comma
      · simp [hprevious] at h
      · simp only [hprevious, ↓reduceIte, Option.some.injEq] at h
        exact ⟨h.symm, ⟨outer, rfl⟩, not_or.1 hprevious⟩

-- ======================================================== what has begun

/-- Nothing, or a sentence that an operator continues. -/
inductive Begun : List Segment → Prop
  | nothing : Begun []
  | operator {s : List Segment} {x : Segment} (left : Sentence s) (kind : x.kind = .operator) :
      Begun (s ++ [x])

/-- Nothing, or arguments with a comma behind them. -/
inductive Earlier : List Segment → Prop
  | nothing : Earlier []
  | comma {a : List Segment} {x : Segment} (arguments : Arguments a) (kind : x.kind = .comma) :
      Earlier (a ++ [x])

/-- An operand completes what has begun to a sentence. -/
theorem Begun.sentence {b s : List Segment} (hb : Begun b) (hs : Operand s) :
    Sentence (b ++ s) := by
  cases hb with
  | nothing => exact .operand hs
  | operator hleft hx =>
      rw [List.append_assoc, List.singleton_append]
      exact .operator hleft hx hs

/-- A sentence completes the arguments of a call. -/
theorem Earlier.arguments {a s : List Segment} (ha : Earlier a) (hs : Sentence s) :
    Arguments (a ++ s) := by
  cases ha with
  | nothing => exact .one hs
  | comma harguments hx =>
      rw [List.append_assoc, List.singleton_append]
      exact harguments.snoc hx hs

/-- Segments up to the innermost open parenthesis, and in a call up to the
argument that is next. -/
inductive Context : List Bool → List Segment → Prop
  | outermost : Context [] []
  | group {opened : List Bool} {c b : List Segment} {o : Segment} (around : Context opened c)
      (begun : Begun b) (opens : o.kind = .leftParen) : Context (false :: opened) (c ++ b ++ [o])
  | call {opened : List Bool} {c b a : List Segment} {f o : Segment} (around : Context opened c)
      (begun : Begun b) (name : f.kind = .function) (opens : o.kind = .leftParen)
      (earlier : Earlier a) : Context (true :: opened) (c ++ b ++ f :: o :: a)

-- ==================================================== segments taken in turn

/-- Segments in a context, by what is due behind them. -/
inductive Reached : Due → Option SegmentKind → List Bool → List Segment → Prop
  | operand {previous : Option SegmentKind} {opened : List Bool} {c b : List Segment}
      (around : Context opened c) (begun : Begun b) (notNamed : previous ≠ some .function) :
      Reached .operand previous opened (c ++ b)
  | parenthesis {opened : List Bool} {c b : List Segment} {f : Segment}
      (around : Context opened c) (begun : Begun b) (name : f.kind = .function) :
      Reached .parenthesis (some .function) opened (c ++ b ++ [f])
  | argument {opened : List Bool} {c b : List Segment} {f o : Segment}
      (around : Context opened c) (begun : Begun b) (name : f.kind = .function)
      (opens : o.kind = .leftParen) :
      Reached .argument (some .leftParen) (true :: opened) (c ++ b ++ [f, o])
  | operator {previous : Option SegmentKind} {opened : List Bool} {c s : List Segment}
      (around : Context opened c) (complete : Sentence s) :
      Reached .operator previous opened (c ++ s)

/-- Where a call may end at once, an operand may begin as well. -/
theorem Reached.argument_operand {previous : Option SegmentKind} {opened : List Bool}
    {done : List Segment} (h : Reached .argument previous opened done) :
    Reached .operand previous opened done := by
  cases h with
  | argument hc hb hf ho =>
      have hcall := Context.call hc hb hf ho .nothing
      have hreached : Reached .operand (some .leftParen) _ _ := .operand hcall .nothing (by simp)
      rwa [List.append_nil] at hreached

/-- A segment where an operand is due. -/
theorem Reached.step_operand {previous : Option SegmentKind} {opened next : List Bool}
    {done : List Segment} {x : Segment} {due : Due}
    (h : Reached .operand previous opened done)
    (hdue : Due.operand.behind x.kind = some due)
    (hnext : bracketsBehind previous opened x.kind = some next) :
    Reached due (some x.kind) next (done ++ [x]) := by
  cases h with
  | @operand _ _ c b hc hb hprevious =>
      cases hx : x.kind with
      | literal =>
          obtain rfl : Due.operator = due := by simpa [hx, Due.behind] using hdue
          obtain rfl : opened = next := by simpa [hx, bracketsBehind] using hnext
          rw [List.append_assoc]
          exact .operator hc (hb.sentence (.literal hx))
      | leftParen =>
          obtain rfl : Due.operand = due := by simpa [hx, Due.behind] using hdue
          -- Behind a function it would be the parenthesis that is due, not an operand.
          have hgroup : (previous == some .function) = false := by simpa using hprevious
          obtain rfl : false :: opened = next := by
            simpa [hx, bracketsBehind, hgroup] using hnext
          have hreached : Reached .operand (some .leftParen) _ _ :=
            .operand (.group hc hb hx) .nothing (by simp)
          rwa [List.append_nil] at hreached
      | function =>
          obtain rfl : Due.parenthesis = due := by simpa [hx, Due.behind] using hdue
          obtain rfl : opened = next := by simpa [hx, bracketsBehind] using hnext
          exact .parenthesis hc hb hx
      | operator => simp [hx, Due.behind] at hdue
      | comma => simp [hx, Due.behind] at hdue
      | rightParen => simp [hx, Due.behind] at hdue

/-- A segment behind an operand. A comma or a closing parenthesis looks for
the context that it belongs to. -/
theorem Reached.step_operator {previous : Option SegmentKind} {opened next : List Bool}
    {done : List Segment} {x : Segment} {due : Due}
    (h : Reached .operator previous opened done)
    (hdue : Due.operator.behind x.kind = some due)
    (hnext : bracketsBehind previous opened x.kind = some next) :
    Reached due (some x.kind) next (done ++ [x]) := by
  cases h with
  | @operator _ _ c s hc hs =>
      cases hx : x.kind with
      | operator =>
          obtain rfl : Due.operand = due := by simpa [hx, Due.behind] using hdue
          obtain rfl : opened = next := by simpa [hx, bracketsBehind] using hnext
          rw [List.append_assoc]
          exact .operand hc (.operator hs hx) (by simp)
      | comma =>
          obtain rfl : Due.operand = due := by simpa [hx, Due.behind] using hdue
          rw [hx] at hnext
          obtain ⟨rfl, ⟨outer, rfl⟩, -, -⟩ := bracketsBehind_comma hnext
          -- A comma needs an open call, so the context is not a group and not empty.
          cases hc with
          | @call _ c b a f o hc hb hf ho ha =>
              have hcall := Context.call hc hb hf ho (.comma (ha.arguments hs) hx)
              have hreached : Reached .operand (some .comma) _ _ :=
                .operand hcall .nothing (by simp)
              simpa only [List.append_assoc, List.cons_append, List.append_nil] using hreached
      | rightParen =>
          obtain rfl : Due.operator = due := by simpa [hx, Due.behind] using hdue
          rw [hx] at hnext
          obtain ⟨call, rfl, -⟩ := bracketsBehind_rightParen hnext
          -- The group or the call is an operand of what had begun in front of it.
          cases hc with
          | @group _ c b o hc hb ho =>
              have hgroup := hb.sentence (.group ho hs hx)
              have hreached : Reached .operator (some .rightParen) _ _ := .operator hc hgroup
              simpa only [List.append_assoc, List.cons_append, List.nil_append] using hreached
          | @call _ c b a f o hc hb hf ho ha =>
              have hcall := hb.sentence (.call hf ho (ha.arguments hs) hx)
              have hreached : Reached .operator (some .rightParen) _ _ := .operator hc hcall
              simpa only [List.append_assoc, List.cons_append, List.nil_append] using hreached
      | literal => simp [hx, Due.behind] at hdue
      | leftParen => simp [hx, Due.behind] at hdue
      | function => simp [hx, Due.behind] at hdue

/-- Any segment that may stand where it does. -/
theorem Reached.step {previous : Option SegmentKind} {opened next : List Bool}
    {done : List Segment} {x : Segment} {here due : Due}
    (h : Reached here previous opened done) (hdue : here.behind x.kind = some due)
    (hnext : bracketsBehind previous opened x.kind = some next) :
    Reached due (some x.kind) next (done ++ [x]) := by
  cases here with
  | operand => exact h.step_operand hdue hnext
  | operator => exact h.step_operator hdue hnext
  | argument =>
      by_cases hx : x.kind = .rightParen
      · -- The call ends without arguments.
        obtain rfl : Due.operator = due := by simpa [hx, Due.behind] using hdue
        rw [hx] at hnext
        obtain ⟨call, rfl, -⟩ := bracketsBehind_rightParen hnext
        cases h with
        | @argument _ c b f o hc hb hf ho =>
            have hcall := hb.sentence (.emptyCall hf ho hx)
            have hreached : Reached .operator (some x.kind) _ _ := .operator hc hcall
            simpa only [List.append_assoc, List.cons_append, List.nil_append] using hreached
      · refine h.argument_operand.step_operand ?_ hnext
        rw [← hdue]
        cases hkind : x.kind with
        | rightParen => exact absurd hkind hx
        | literal => rfl
        | leftParen => rfl
        | function => rfl
        | operator => rfl
        | comma => rfl
  | parenthesis =>
      cases h with
      | @parenthesis _ c b f hc hb hf =>
          cases hx : x.kind with
          | leftParen =>
              obtain rfl : Due.argument = due := by simpa [hx, Due.behind] using hdue
              obtain rfl : true :: opened = next := by simpa [hx, bracketsBehind] using hnext
              have hreached := Reached.argument hc hb hf hx
              simpa only [List.append_assoc, List.singleton_append] using hreached
          | literal => simp [hx, Due.behind] at hdue
          | function => simp [hx, Due.behind] at hdue
          | operator => simp [hx, Due.behind] at hdue
          | comma => simp [hx, Due.behind] at hdue
          | rightParen => simp [hx, Due.behind] at hdue

/-- All segments that may stand where they do. -/
theorem Reached.steps {segments : List Segment} :
    ∀ {previous : Option SegmentKind} {opened next : List Bool} {done : List Segment}
      {here due : Due}, Reached here previous opened done → here.after segments = some due →
      bracketsAfter previous opened segments = some next →
      ∃ last, Reached due last next (done ++ segments) := by
  induction segments with
  | nil =>
      intro previous opened next done here due h hdue hnext
      obtain rfl : here = due := by simpa [Due.after] using hdue
      obtain rfl : opened = next := by simpa [bracketsAfter] using hnext
      exact ⟨previous, by rwa [List.append_nil]⟩
  | cons x segments ih =>
      intro previous opened next done here due h hdue hnext
      obtain ⟨dueBehind, hbehind, hdue⟩ := Option.bind_eq_some_iff.1 hdue
      obtain ⟨openBehind, hopen, hnext⟩ := Option.bind_eq_some_iff.1 hnext
      have hreached := ih (h.step hbehind hopen) hdue hnext
      rwa [List.append_assoc, List.singleton_append] at hreached

/-- Segments that nest are a sentence if they are in order. -/
theorem InOrder.sentence {segments : List Segment} (horder : InOrder segments)
    (hnests : Nests segments) : Sentence segments := by
  have hstart : Reached .operand none [] ([] ++ []) := .operand .outermost .nothing (by simp)
  obtain ⟨last, hreached⟩ := hstart.steps horder hnests
  rw [List.nil_append, List.nil_append] at hreached
  generalize hd : segments = done at hreached
  -- An operator is due at the end, so what has been reached is a sentence, in the context of
  -- nothing open.
  cases hreached with
  | operator hc hs =>
      cases hc
      exact hs

end UnitCalc
