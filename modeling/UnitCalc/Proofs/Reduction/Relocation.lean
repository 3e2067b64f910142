/-
A reduction does not look at positions, nor at the source.

Segments at other places, with whatever places in common, and of another source
have the same instructions at those places, and are refused if the segments are
(`Instruction.ofSegments_moved`). Each function of the reduction commutes with
moving (`Mirrors`); only errors tell positions and the source, and which error
it is does not matter here.

# Numbered segments

So what a reduction does with its segments is told on numbered ones, where the
position of an instruction names the segment it was made of
(`Instruction.ofSegments_numbered`). Any list is its numbered one, moved back
to the places it had; this needs no two places to be different.

`Proofs/Reduction/Order` reads the order of instructions off numbered segments,
and `Proofs/Parsing/Parenthesized` moves all of them by one.
-/
import UnitCalc.Proofs.Reduction.Invariant
import UnitCalc.Proofs.Segment.Moved

namespace UnitCalc

/-- The same instruction at another place. -/
def Instruction.moved (place : Nat → Nat) : Instruction → Instruction
  | .value text position => .value text (place position)
  | .operator symbol position => .operator symbol (place position)
  | .call name position count => .call name (place position) count

theorem Instruction.segment_moved (place : Nat → Nat) (i : Instruction) :
    (i.moved place).segment = i.segment.moved place := by
  cases i <;> rfl

-- ================================================================= answers

/-- An answer and its image; to an error any error answers. -/
inductive Mirrors {α β : Type} (image : α → β) : Except Fault α → Except Fault β → Prop
  | ok {a : α} {b : β} (same : image a = b) : Mirrors image (.ok a) (.ok b)
  | error {fault fault' : Fault} : Mirrors image (.error fault) (.error fault')

namespace Mirrors

variable {α β : Type} {image : α → β} {answer : Except Fault α} {answer' : Except Fault β}

theorem bind {γ δ : Type} {image' : γ → δ} {f : α → Except Fault γ} {f' : β → Except Fault δ}
    (h : Mirrors image answer answer') (hf : ∀ a, Mirrors image' (f a) (f' (image a))) :
    Mirrors image' (answer >>= f) (answer' >>= f') := by
  cases h with
  | @ok a b hsame =>
      subst hsame
      exact hf a
  | error => exact .error

/-- Whatever does not depend on what is moved. -/
theorem same (answer : Except Fault α) : Mirrors id answer answer := by
  cases answer with
  | ok a => exact .ok rfl
  | error fault => exact .error

theorem eq_ok {b : β} (h : Mirrors image answer answer') (hb : answer' = .ok b) :
    ∃ a, answer = .ok a ∧ image a = b := by
  subst hb
  cases h with
  | @ok a _ hsame => exact ⟨a, rfl, hsame⟩

theorem ok_eq {a : α} (h : Mirrors image (.ok a) answer') : answer' = .ok (image a) := by
  cases h with
  | ok hsame => rw [hsame]

end Mirrors

namespace Reduction

/-- The same reduction with everything at another place. -/
def moved (place : Nat → Nat) (r : Reduction) : Reduction where
  output := r.output.map (Instruction.moved place)
  stack := r.stack.map (Segment.moved place)
  counters := r.counters
  previous := r.previous

variable {grammar : Grammar} {source : String} {place : Nat → Nat}

-- =============================================================== the stack

theorem callOpen_moved (stack : List Segment) :
    callOpen (stack.map (Segment.moved place)) = callOpen stack := by
  match stack with
  | [] => rfl
  | [_] => rfl
  | _ :: _ :: _ => rfl

theorem release_moved (r : Reduction) (x : Segment) :
    Mirrors (moved place) (release grammar r x)
      (release { grammar with source } (r.moved place) (x.moved place)) := by
  unfold release
  by_cases hx : x.kind = .function
  · rw [if_pos hx, if_pos (by simpa using hx)]
    cases hcounters : r.counters with
    | nil =>
        simp only [moved, hcounters]
        exact .error
    | cons count counters =>
        simp only [moved, hcounters]
        refine (Mirrors.same _).bind fun _ => .ok ?_
        simp [moved, Instruction.moved]
  · rw [if_neg hx, if_neg (by simpa using hx)]
    refine .ok ?_
    simp [moved, Instruction.moved]

theorem releaseWhile_moved {test test' : Segment → Except Fault Bool}
    (htest : ∀ x, Mirrors id (test x) (test' (x.moved place))) (stack : List Segment) :
    ∀ r : Reduction, Mirrors (moved place) (releaseWhile grammar test stack r)
      (releaseWhile { grammar with source } test' (stack.map (Segment.moved place))
        (r.moved place)) := by
  induction stack with
  | nil =>
      intro r
      exact .ok rfl
  | cons top below ih =>
      intro r
      rw [List.map_cons, releaseWhile, releaseWhile]
      refine (htest top).bind fun passes => ?_
      cases passes with
      | true =>
          have hrelease : Mirrors (moved place) (release grammar { r with stack := below } top)
              (release { grammar with source } (moved place { r with stack := below })
                (top.moved place)) :=
            release_moved _ top
          exact hrelease.bind fun r' => ih r'
      | false => exact .ok rfl

theorem releaseToParen_moved (r : Reduction) :
    Mirrors (moved place) (releaseToParen grammar r)
      (releaseToParen { grammar with source } (r.moved place)) :=
  releaseWhile_moved (fun _ => .ok rfl) r.stack r

theorem beginArgument_moved (r : Reduction) (x : Segment) :
    Mirrors (moved place) (beginArgument grammar r x)
      (beginArgument { grammar with source } (r.moved place) (x.moved place)) := by
  have hopen : callOpen (r.moved place).stack = callOpen r.stack := callOpen_moved r.stack
  unfold beginArgument
  rw [hopen]
  cases callOpen r.stack with
  | false => exact .ok rfl
  | true =>
      cases hcounters : r.counters with
      | nil =>
          simp only [moved, hcounters]
          exact .error
      | cons count counters =>
          simp only [moved, hcounters]
          exact .ok rfl

-- ============================================================ the segments

theorem literal_moved (r : Reduction) (x : Segment) :
    Mirrors (moved place) (literal grammar r x)
      (literal { grammar with source } (r.moved place) (x.moved place)) := by
  refine (beginArgument_moved r x).bind fun r' => .ok ?_
  simp [moved, Instruction.moved]

theorem function_moved (r : Reduction) (x : Segment) (next : Option SegmentKind) :
    Mirrors (moved place) (function grammar r x next)
      (function { grammar with source } (r.moved place) (x.moved place) next) := by
  unfold function
  cases next != some .leftParen with
  | true => exact .error
  | false => exact (beginArgument_moved r x).bind fun r' => .ok rfl

theorem operator_moved (r : Reduction) (x : Segment) :
    Mirrors (moved place) (operator grammar r x)
      (operator { grammar with source } (r.moved place) (x.moved place)) := by
  unfold operator
  rw [Segment.moved_text]
  cases grammar.operators.get? x.text with
  | none => exact .error
  | some operator =>
      refine (releaseWhile_moved (fun top => ?_) r.stack r).bind fun r' => .ok rfl
      rw [Segment.moved_kind, Segment.moved_text]
      exact .same _

theorem leftParen_moved (r : Reduction) (x : Segment) :
    Mirrors (moved place) (leftParen grammar r x)
      (leftParen { grammar with source } (r.moved place) (x.moved place)) :=
  (beginArgument_moved r x).bind fun _ => .ok rfl

theorem comma_moved (r : Reduction) (x : Segment) :
    Mirrors (moved place) (comma grammar r x)
      (comma { grammar with source } (r.moved place) (x.moved place)) := by
  refine (releaseToParen_moved r).bind fun r' => ?_
  have hopen : callOpen (r'.moved place).stack = callOpen r'.stack := callOpen_moved r'.stack
  rw [hopen]
  cases callOpen r'.stack with
  | false => exact .error
  | true =>
      by_cases hprevious : r'.previous = some .leftParen ∨ r'.previous = some .comma
      · simp only [moved, hprevious, ↓reduceIte]
        exact .error
      · simp only [moved, hprevious, ↓reduceIte]
        exact .ok rfl

theorem rightParen_moved (r : Reduction) (x : Segment) :
    Mirrors (moved place) (rightParen grammar r x)
      (rightParen { grammar with source } (r.moved place) (x.moved place)) := by
  refine (releaseToParen_moved r).bind fun r' => ?_
  match hstack : r'.stack with
  | [] =>
      simp only [moved, hstack, List.map_nil]
      exact .error
  | o :: below =>
      simp only [moved, hstack, List.map_cons]
      by_cases hprevious : r'.previous = some .comma
      · simp only [hprevious, ↓reduceIte]
        exact .error
      · simp only [hprevious, ↓reduceIte]
        match below with
        | [] => exact .ok rfl
        | top :: rest =>
            by_cases htop : top.kind = .function
            · simp only [List.map_cons, Segment.moved_kind, htop, ↓reduceIte]
              exact release_moved { r' with stack := rest } top
            · simp only [List.map_cons, Segment.moved_kind, htop, ↓reduceIte]
              exact .ok rfl

theorem step_moved (r : Reduction) (x : Segment) (next : Option SegmentKind) :
    Mirrors (moved place) (step grammar r x next)
      (step { grammar with source } (r.moved place) (x.moved place) next) := by
  unfold step
  rw [Segment.moved_kind]
  cases x.kind with
  | literal => exact (literal_moved r x).bind fun _ => .ok rfl
  | function => exact (function_moved r x next).bind fun _ => .ok rfl
  | operator => exact (operator_moved r x).bind fun _ => .ok rfl
  | leftParen => exact (leftParen_moved r x).bind fun _ => .ok rfl
  | comma => exact (comma_moved r x).bind fun _ => .ok rfl
  | rightParen => exact (rightParen_moved r x).bind fun _ => .ok rfl

-- ============================================================== whole runs

theorem run_moved (segments : List Segment) :
    ∀ r : Reduction, Mirrors (moved place) (run grammar r segments)
      (run { grammar with source } (r.moved place) (segments.map (Segment.moved place))) := by
  induction segments with
  | nil =>
      intro r
      exact .ok rfl
  | cons x more ih =>
      intro r
      -- A step looks at the kind of the next segment, and moving keeps kinds.
      have hnext : (more.map (Segment.moved place)).head?.map Segment.kind
          = more.head?.map Segment.kind := by
        cases more <;> rfl
      rw [List.map_cons, run, run, hnext]
      exact (step_moved r x _).bind fun r' => ih r'

theorem finish_moved (r : Reduction) :
    Mirrors (moved place) (finish grammar r) (finish { grammar with source } (r.moved place)) := by
  refine releaseWhile_moved (fun top => ?_) r.stack r
  rw [Segment.moved_kind]
  by_cases htop : top.kind = .leftParen
  · rw [if_pos htop, if_pos htop]
    exact .error
  · rw [if_neg htop, if_neg htop]
    exact .ok rfl

end Reduction

/-- Moved segments have the moved instructions. -/
theorem Instruction.ofSegments_moved (grammar : Grammar) (source : String) (place : Nat → Nat)
    (segments : List Segment) :
    Mirrors (List.map (Instruction.moved place)) (Instruction.ofSegments? grammar segments)
      (Instruction.ofSegments? { grammar with source } (segments.map (Segment.moved place))) := by
  refine (Reduction.run_moved segments {}).bind fun r => ?_
  exact (Reduction.finish_moved r).bind fun _ => .ok rfl

/-- What a list of segments is reduced to is told by its numbered ones. -/
theorem Instruction.ofSegments_numbered {grammar : Grammar} {segments : List Segment}
    {instructions : List Instruction}
    (h : Instruction.ofSegments? grammar segments = .ok instructions) :
    ∃ traced, Instruction.ofSegments? grammar (numbered 0 segments) = .ok traced
      ∧ traced.map (Instruction.moved (placeOf segments)) = instructions := by
  refine (ofSegments_moved grammar grammar.source (placeOf segments) (numbered 0 segments)).eq_ok ?_
  rw [map_moved_numbered, h]

end UnitCalc
