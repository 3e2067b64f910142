/-
A reduction on an open parenthesis.

Nothing that goes looks below the bottom of its stack, so a run that goes on an
empty stack goes on an open parenthesis as well, which stays where it is
(`Reduction.run_framed`). What waits at the end is released by the parenthesis
that closes, as it would be by the end of the list. So segments in parentheses
have the instructions of the segments (`Instruction.ofSegments_enclosed`).

# The first step

The start of a list is not quite like an open parenthesis, which a comma or a
closing parenthesis could tell from it: the last kind of segment is another
one. But neither goes there (`Reduction.step_first`), and behind the first
segment the last kinds are the same.

# The last step

The parenthesis that closes is taken only if no comma is right in front of it.
A list that is reduced does not end in one (`Reduction.run_closed`): behind a
comma a call is open, and at the end nothing is.
-/
import UnitCalc.Proofs.Reduction.Enclosed

namespace UnitCalc

namespace Reduction

/-- The same reduction on top of a segment. -/
def framed (o : Segment) (r : Reduction) : Reduction :=
  { r with stack := r.stack ++ [o] }

variable {grammar : Grammar} {o x : Segment} {r r' : Reduction} {next : Option SegmentKind}

-- ================================================================ the stack

/-- No call opens at the bottom of a stack. -/
theorem callOpen_framed (ho : o.kind = .leftParen) (stack : List Segment) :
    callOpen (stack ++ [o]) = callOpen stack := by
  match stack with
  | [] => rfl
  | [top] => simp [callOpen, ho]
  | _ :: _ :: _ => rfl

theorem release_framed (h : release grammar r x = .ok r') :
    release grammar (framed o r) x = .ok (framed o r') := by
  unfold release at h ⊢
  by_cases hx : x.kind = .function
  · rw [if_pos hx] at h ⊢
    cases hcounters : r.counters with
    | nil =>
        rw [hcounters] at h
        cases h
    | cons count counters =>
        simp only [framed, hcounters] at h ⊢
        obtain ⟨_, hlimit, h⟩ := bind_eq_ok.1 h
        cases h
        rw [hlimit]
        rfl
  · rw [if_neg hx] at h ⊢
    cases h
    rfl

/-- What is released down to the bottom is released down to the segment that
lies there, if that is not released. -/
theorem releaseWhile_framed {test test' : Segment → Except Fault Bool}
    (htest : ∀ top passes, test top = .ok passes → test' top = .ok passes)
    (ho : test' o = .ok false) {stack : List Segment} :
    ∀ {r : Reduction}, releaseWhile grammar test stack r = .ok r' →
      releaseWhile grammar test' (stack ++ [o]) (framed o r) = .ok (framed o r') := by
  induction stack with
  | nil =>
      intro r h
      cases h
      rw [List.nil_append, releaseWhile, ho]
      rfl
  | cons top below ih =>
      intro r h
      rw [releaseWhile] at h
      obtain ⟨passes, htop, h⟩ := bind_eq_ok.1 h
      rw [List.cons_append, releaseWhile, htest top passes htop]
      cases passes with
      | false =>
          cases h
          rfl
      | true =>
          obtain ⟨released, hreleased, h⟩ := bind_eq_ok.1 h
          have hframed : release grammar { framed o r with stack := below ++ [o] } top
              = .ok (framed o released) :=
            release_framed hreleased
          show release grammar { framed o r with stack := below ++ [o] } top >>= _ = _
          rw [hframed]
          exact ih h

theorem releaseToParen_framed (ho : o.kind = .leftParen) (h : releaseToParen grammar r = .ok r') :
    releaseToParen grammar (framed o r) = .ok (framed o r') :=
  releaseWhile_framed (fun _ _ htop => htop) (by simp [ho]) h

theorem beginArgument_framed (ho : o.kind = .leftParen) (h : beginArgument grammar r x = .ok r') :
    beginArgument grammar (framed o r) x = .ok (framed o r') := by
  have hopen : callOpen (framed o r).stack = callOpen r.stack := callOpen_framed ho r.stack
  unfold beginArgument at h ⊢
  rw [hopen]
  cases hcall : callOpen r.stack with
  | false =>
      rw [hcall] at h
      cases h
      rfl
  | true =>
      rw [hcall] at h
      cases hcounters : r.counters with
      | nil =>
          rw [hcounters] at h
          cases h
      | cons count counters =>
          rw [hcounters] at h
          cases h
          simp only [framed, hcounters]
          rfl

-- ============================================================= the segments

theorem literal_framed (ho : o.kind = .leftParen) (h : literal grammar r x = .ok r') :
    literal grammar (framed o r) x = .ok (framed o r') := by
  obtain ⟨begun, hbegun, h⟩ := bind_eq_ok.1 h
  cases h
  unfold literal
  rw [beginArgument_framed ho hbegun]
  rfl

theorem function_framed (ho : o.kind = .leftParen) (h : function grammar r x next = .ok r') :
    function grammar (framed o r) x next = .ok (framed o r') := by
  unfold function at h ⊢
  cases hnext : next != some .leftParen with
  | true =>
      rw [hnext] at h
      cases h
  | false =>
      simp only [hnext, Bool.false_eq_true, ↓reduceIte] at h ⊢
      obtain ⟨begun, hbegun, h⟩ := bind_eq_ok.1 h
      cases h
      rw [beginArgument_framed ho hbegun]
      rfl

theorem operator_framed (ho : o.kind = .leftParen) (h : operator grammar r x = .ok r') :
    operator grammar (framed o r) x = .ok (framed o r') := by
  unfold operator at h ⊢
  cases hknown : grammar.operators.get? x.text with
  | none =>
      rw [hknown] at h
      cases h
  | some operator =>
      simp only [hknown] at h ⊢
      obtain ⟨released, hreleased, h⟩ := bind_eq_ok.1 h
      cases h
      have hframed := releaseWhile_framed (o := o) (fun _ _ htop => htop)
        (by simp [ho, pure, Except.pure]) hreleased
      show releaseWhile grammar _ (r.stack ++ [o]) (framed o r) >>= _ = _
      rw [hframed]
      rfl

theorem leftParen_framed (ho : o.kind = .leftParen) (h : leftParen grammar r x = .ok r') :
    leftParen grammar (framed o r) x = .ok (framed o r') := by
  obtain ⟨begun, hbegun, h⟩ := bind_eq_ok.1 h
  cases h
  unfold leftParen
  rw [beginArgument_framed ho hbegun]
  rfl

theorem comma_framed (ho : o.kind = .leftParen) (h : comma grammar r x = .ok r') :
    comma grammar (framed o r) x = .ok (framed o r') := by
  obtain ⟨hreleased, hopen, hprevious⟩ := comma_eq_ok.1 h
  refine comma_eq_ok.2 ⟨releaseToParen_framed ho hreleased, ?_, hprevious⟩
  show callOpen (r'.stack ++ [o]) = true
  rw [callOpen_framed ho, hopen]

theorem rightParen_framed (ho : o.kind = .leftParen) (h : rightParen grammar r x = .ok r') :
    rightParen grammar (framed o r) x = .ok (framed o r') := by
  obtain ⟨released, p, below, hreleased, hstack, hprevious, hbelow⟩ := rightParen_eq_ok.1 h
  have hframed : (framed o released).stack = p :: (below ++ [o]) := by
    show released.stack ++ [o] = _
    rw [hstack, List.cons_append]
  refine rightParen_eq_ok.2
    ⟨_, p, _, releaseToParen_framed ho hreleased, hframed, hprevious, ?_⟩
  rcases hbelow with ⟨f, rest, rfl, hf, hcalled⟩ | ⟨hno, rfl⟩
  · have hreleased' : release grammar (framed o { released with stack := rest }) f
        = .ok (framed o r') :=
      release_framed hcalled
    exact Or.inl ⟨f, rest ++ [o], rfl, hf, hreleased'⟩
  · refine Or.inr ⟨?_, rfl⟩
    -- Where there was nothing below, there is now the parenthesis, which is no function either.
    cases below with
    | nil => simp [ho]
    | cons top rest => exact hno

/-- A step that goes, goes on an open parenthesis. -/
theorem step_framed (ho : o.kind = .leftParen) (h : step grammar r x next = .ok r') :
    step grammar (framed o r) x next = .ok (framed o r') := by
  cases hx : x.kind with
  | literal =>
      simp only [step, hx] at h ⊢
      obtain ⟨taken, htaken, h⟩ := bind_eq_ok.1 h
      cases h
      exact bind_eq_ok.2 ⟨_, literal_framed ho htaken, rfl⟩
  | function =>
      simp only [step, hx] at h ⊢
      obtain ⟨taken, htaken, h⟩ := bind_eq_ok.1 h
      cases h
      exact bind_eq_ok.2 ⟨_, function_framed ho htaken, rfl⟩
  | operator =>
      simp only [step, hx] at h ⊢
      obtain ⟨taken, htaken, h⟩ := bind_eq_ok.1 h
      cases h
      exact bind_eq_ok.2 ⟨_, operator_framed ho htaken, rfl⟩
  | leftParen =>
      simp only [step, hx] at h ⊢
      obtain ⟨taken, htaken, h⟩ := bind_eq_ok.1 h
      cases h
      exact bind_eq_ok.2 ⟨_, leftParen_framed ho htaken, rfl⟩
  | comma =>
      simp only [step, hx] at h ⊢
      obtain ⟨taken, htaken, h⟩ := bind_eq_ok.1 h
      cases h
      exact bind_eq_ok.2 ⟨_, comma_framed ho htaken, rfl⟩
  | rightParen =>
      simp only [step, hx] at h ⊢
      obtain ⟨taken, htaken, h⟩ := bind_eq_ok.1 h
      cases h
      exact bind_eq_ok.2 ⟨_, rightParen_framed ho htaken, rfl⟩

-- ================================================================ whole runs

theorem run_framed (ho : o.kind = .leftParen) {segments : List Segment} :
    ∀ {r : Reduction}, run grammar r segments = .ok r' →
      run grammar (framed o r) segments = .ok (framed o r') := by
  induction segments with
  | nil =>
      intro r h
      cases h
      rfl
  | cons x more ih =>
      intro r h
      rw [run] at h ⊢
      obtain ⟨middle, hstep, h⟩ := bind_eq_ok.1 h
      exact bind_eq_ok.2 ⟨_, step_framed ho hstep, ih h⟩

/-- The first step does not tell an open parenthesis from the start of a list. -/
theorem step_first (ho : o.kind = .leftParen) {previous : Option SegmentKind}
    (h : step grammar {} x next = .ok r') :
    step grammar { stack := [o], previous } x next = .ok (framed o r') := by
  have hnone : callOpen [o] = false := rfl
  cases hx : x.kind with
  | literal =>
      rw [step_literal_ok hx h, step_literal hx (by simp [hnone])]
      rfl
  | function =>
      by_cases hnext : next = some .leftParen
      · subst hnext
        rw [step_function_ok hx h, step_function hx (by simp [hnone])]
        rfl
      · rw [step_function_unopened hx hnext] at h
        cases h
  | operator =>
      cases hknown : grammar.operators.get? x.text with
      | none =>
          rw [step_operator_unknown hx hknown] at h
          cases h
      | some operator =>
          rw [step_operator hx hknown (List.nil_append []).symm (by simp) (by simp)] at h
          cases h
          exact step_operator hx hknown (List.nil_append [o]).symm (by simp) (by simp [ho])
  | leftParen =>
      rw [step_leftParen_ok hx h, step_leftParen hx (by simp [hnone])]
      rfl
  | comma =>
      rw [step_comma_misplaced hx (releaseToParen_all (by simp)) rfl] at h
      cases h
  | rightParen =>
      rw [step_rightParen_unopened hx (by simp)] at h
      cases h

theorem run_first (ho : o.kind = .leftParen) (previous : Option SegmentKind)
    {segments : List Segment} (h : run grammar {} segments = .ok r) :
    ∃ reached, run grammar { stack := [o], previous } segments = .ok reached
      ∧ reached.stack = r.stack ++ [o] ∧ reached.output = r.output
      ∧ (reached.previous = r.previous ∨ reached.previous = previous) := by
  cases segments with
  | nil =>
      cases h
      exact ⟨_, rfl, rfl, rfl, Or.inr rfl⟩
  | cons x more =>
      rw [run] at h
      obtain ⟨first, hfirst, h⟩ := bind_eq_ok.1 h
      exact ⟨framed o r, bind_eq_ok.2 ⟨_, step_first ho hfirst, run_framed ho h⟩, rfl, rfl,
        Or.inl rfl⟩

/-- A list that is reduced leaves operators, and no comma is behind. -/
theorem run_closed {segments : List Segment} (hrun : run grammar {} segments = .ok r)
    (hfinish : finish grammar r = .ok r') :
    (∀ p ∈ r.stack, p.kind = .operator) ∧ r.previous ≠ some .comma
      ∧ r'.output = r.output ++ r.stack.map operatorInstruction := by
  have hran : Ran grammar [] {} segments (run grammar {} segments) := Sound.start.run (by simp)
  rw [hrun] at hran
  cases hran with
  | @taken _ inner _ _ hnotNamed hsound _ =>
      cases hsound with
      | named _ _ _ _ hbehind => exact absurd hbehind hnotNamed
      | between hstack _ _ hcomma =>
          rcases hstack.finish with ⟨rfl, hoperators, hends⟩ | ⟨-, o, -, hends⟩
          · rw [hends] at hfinish
            cases hfinish
            exact ⟨hoperators, by simpa using hcomma, rfl⟩
          · rw [hends] at hfinish
            cases hfinish

end Reduction

/-- Parentheses around segments that are reduced add nothing. -/
theorem Instruction.ofSegments_enclosed {grammar : Grammar} {o c : Segment}
    {segments : List Segment} {instructions : List Instruction} (ho : o.kind = .leftParen)
    (hc : c.kind = .rightParen) (h : Instruction.ofSegments? grammar segments = .ok instructions) :
    Instruction.ofSegments? grammar (o :: (segments ++ [c])) = .ok instructions := by
  have hlast : lastKind segments ≠ some .function := by
    have hcalled : Called (segments ++ []) := by
      rw [List.append_nil]
      exact (ofSegments_carries h).1.called
    exact hcalled.lastKind_ne [] (by simp)
  obtain ⟨r, hrun, h⟩ := bind_eq_ok.1 h
  obtain ⟨r', hfinish, h⟩ := bind_eq_ok.1 h
  cases h
  obtain ⟨hoperators, hcomma, houtput⟩ := Reduction.run_closed hrun hfinish
  obtain ⟨reached, hreached, hstack, hwritten, hprevious⟩ :=
    Reduction.run_first ho (some .leftParen) hrun
  have hopened : Reduction.step grammar {} o ((segments ++ [c]).head?.map Segment.kind)
      = .ok { stack := [o], previous := some .leftParen } :=
    Reduction.step_leftParen ho (by simp [Reduction.callOpen])
  have hbehind : reached.previous ≠ some .comma := by
    rcases hprevious with hprevious | hprevious
    · rwa [hprevious]
    · simp [hprevious]
  obtain ⟨closed, hclosed, hempty, hends⟩ : ∃ closed,
      Reduction.step grammar reached c none = .ok closed ∧ closed.stack = []
        ∧ closed.output = reached.output ++ r.stack.map Reduction.operatorInstruction :=
    ⟨_, Reduction.step_rightParen_group hc hstack ho hoperators (by simp) hbehind, rfl, rfl⟩
  have hwhole : Reduction.run grammar {} (o :: (segments ++ [c])) = .ok closed := by
    rw [Reduction.run, hopened]
    show Reduction.run grammar _ (segments ++ [c]) = _
    rw [Reduction.run_append _ hlast, hreached]
    show Reduction.run grammar reached [c] = _
    exact bind_eq_ok.2 ⟨_, hclosed, rfl⟩
  have hdone : Reduction.finish grammar closed = .ok { closed with stack := [] } := by
    unfold Reduction.finish
    rw [hempty]
    rfl
  refine bind_eq_ok.2 ⟨_, hwhole, bind_eq_ok.2 ⟨_, hdone, ?_⟩⟩
  rw [houtput, ← hwritten, ← hends]
  rfl

end UnitCalc
