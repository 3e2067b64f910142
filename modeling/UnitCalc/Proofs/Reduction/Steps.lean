/-
What one segment does to a reduction whose stack is known down to the place the
segment reaches.

There is one equation for each kind of segment and each way it can be refused,
and one for the end of the list. The stack is always written as the operators
that are released, `pending`, on top of the part that stays; whoever uses an
equation says where the one ends and the other begins.

# Releasing

Three tests decide what leaves the stack: that of an operator, that of a comma
or a closing parenthesis, and that of the end of the list. All of them let
operators go, and so all are one lemma about a test (`releaseWhile_operators`)
and one about a test that fails for good (`releaseWhile_error`).

# Who uses them

Nothing here says how the stack came to look like that.
`Proofs/Reduction/Simulation` puts the equations together along a derivation,
`Proofs/Reduction/Invariant` splits whatever stack there is and has one of them
for every case, and `Proofs/Reduction/Inversion` goes the other way and reads a
successful step.
-/
import UnitCalc.Instruction.Reduction

namespace UnitCalc.Reduction

variable {grammar : Grammar} {r : Reduction} {x : Segment}

-- ==================================================== released operators

/-- The instruction of an operator that leaves the stack. -/
def operatorInstruction (x : Segment) : Instruction :=
  .operator x.text x.position

/-- An operator leaves the stack for the end of the output. -/
theorem release_operator (hx : x.kind = .operator) :
    release grammar r x
      = .ok { r with output := r.output ++ [operatorInstruction x] } := by
  unfold release
  rw [if_neg (by simp [hx])]
  rfl

/-- Operators that pass a test are released in turn, down to a segment that
fails it. -/
theorem releaseWhile_operators {test : Segment → Except Fault Bool}
    {pending below : List Segment} :
    ∀ {r : Reduction},
      (∀ p ∈ pending, p.kind = .operator ∧ test p = .ok true) →
      (∀ top ∈ below.head?, test top = .ok false) →
      releaseWhile grammar test (pending ++ below) r
        = .ok { r with
            stack := below
            output := r.output ++ pending.map operatorInstruction } := by
  induction pending with
  | nil =>
      intro r _ hbelow
      cases below with
      | nil => simp [releaseWhile]
      | cons top below =>
          have htop := hbelow top rfl
          simp [releaseWhile, htop, bind, Except.bind, pure, Except.pure]
  | cons p pending ih =>
      intro r hpending hbelow
      obtain ⟨hkind, htest⟩ := hpending p List.mem_cons_self
      have hrest : ∀ q ∈ pending, q.kind = .operator ∧ test q = .ok true :=
        fun q hq => hpending q (List.mem_cons_of_mem p hq)
      simp only [List.cons_append, releaseWhile, htest, bind, Except.bind, ↓reduceIte]
      rw [release_operator hkind]
      simp only [ih hrest hbelow, List.map_cons, List.append_assoc, List.singleton_append]

/-- A test that fails for good ends the reduction. -/
theorem releaseWhile_error {test : Segment → Except Fault Bool} {fault : Fault}
    {pending below : List Segment} :
    ∀ {r : Reduction},
      (∀ p ∈ pending, p.kind = .operator ∧ test p = .ok true) → test x = .error fault →
      releaseWhile grammar test (pending ++ x :: below) r = .error fault := by
  induction pending with
  | nil =>
      intro r _ htest
      simp [releaseWhile, htest, bind, Except.bind]
  | cons p pending ih =>
      intro r hpending htest
      obtain ⟨hkind, hp⟩ := hpending p List.mem_cons_self
      have hrest : ∀ q ∈ pending, q.kind = .operator ∧ test q = .ok true :=
        fun q hq => hpending q (List.mem_cons_of_mem p hq)
      simp only [List.cons_append, releaseWhile, hp, bind, Except.bind, ↓reduceIte]
      rw [release_operator hkind]
      exact ih hrest htest

/-- What is released down to an open parenthesis is the operators above
it. -/
theorem releaseToParen_operators {pending below : List Segment}
    (hstack : r.stack = pending ++ x :: below) (hx : x.kind = .leftParen)
    (hpending : ∀ p ∈ pending, p.kind = .operator) :
    releaseToParen grammar r
      = .ok { r with
          stack := x :: below
          output := r.output ++ pending.map operatorInstruction } := by
  unfold releaseToParen
  rw [hstack, releaseWhile_operators]
  · intro p hp
    refine ⟨hpending p hp, ?_⟩
    rw [hpending p hp]
    rfl
  · intro top htop
    obtain rfl : x = top := by simpa using htop
    rw [hx]
    rfl

/-- Where nothing is open everything is released in search of a
parenthesis. -/
theorem releaseToParen_all (hstack : ∀ p ∈ r.stack, p.kind = .operator) :
    releaseToParen grammar r
      = .ok { r with stack := [], output := r.output ++ r.stack.map operatorInstruction } := by
  unfold releaseToParen
  rw [← List.append_nil r.stack, releaseWhile_operators]
  · simp
  · intro p hp
    refine ⟨hstack p hp, ?_⟩
    rw [hstack p hp]
    rfl
  · simp

-- ==================================================== argument counters

/-- The counters behind a segment that may begin an argument: directly on
the parenthesis of a call it does. -/
def begun (stack : List Segment) (counters : List Nat) : List Nat :=
  if callOpen stack then counters.modifyHead (· + 1) else counters

/-- An argument is counted where there is a counter for it. -/
theorem beginArgument_ok (hcounters : callOpen r.stack = true → r.counters ≠ []) :
    beginArgument grammar r x = .ok { r with counters := begun r.stack r.counters } := by
  unfold beginArgument begun
  by_cases hopen : callOpen r.stack = true
  · obtain ⟨count, outer, hcons⟩ := List.exists_cons_of_ne_nil (hcounters hopen)
    simp [hopen, hcons]
  · simp [hopen]

-- =========================================================== the segments

/-- A literal goes to the output. -/
theorem step_literal {next : Option SegmentKind} (hx : x.kind = .literal)
    (hcounters : callOpen r.stack = true → r.counters ≠ []) :
    step grammar r x next
      = .ok {
          output := r.output ++ [.value x.text x.position]
          stack := r.stack
          counters := begun r.stack r.counters
          previous := some .literal } := by
  simp only [step, hx, literal, beginArgument_ok hcounters, bind, Except.bind, pure,
    Except.pure]

/-- An open parenthesis goes on the stack. -/
theorem step_leftParen {next : Option SegmentKind} (hx : x.kind = .leftParen)
    (hcounters : callOpen r.stack = true → r.counters ≠ []) :
    step grammar r x next
      = .ok {
          output := r.output
          stack := x :: r.stack
          counters := begun r.stack r.counters
          previous := some .leftParen } := by
  simp only [step, hx, leftParen, beginArgument_ok hcounters, bind, Except.bind, pure,
    Except.pure]

/-- A function goes on the stack with a counter of its own. -/
theorem step_function (hx : x.kind = .function)
    (hcounters : callOpen r.stack = true → r.counters ≠ []) :
    step grammar r x (some .leftParen)
      = .ok {
          output := r.output
          stack := x :: r.stack
          counters := 0 :: begun r.stack r.counters
          previous := some .function } := by
  simp only [step, hx, function, beginArgument_ok hcounters, bne_self_eq_false,
    Bool.false_eq_true, ↓reduceIte, bind, Except.bind, pure, Except.pure]

/-- An operator goes on the stack in place of those that are applied before
it. -/
theorem step_operator {next : Option SegmentKind} {operator : OperatorSymbol}
    {pending below : List Segment} (hx : x.kind = .operator)
    (hknown : grammar.operators.get? x.text = some operator)
    (hstack : r.stack = pending ++ below)
    (hpending : ∀ p ∈ pending, p.kind = .operator
      ∧ ∃ waiting, grammar.operators.get? p.text = some waiting
        ∧ operator.yieldsTo waiting = true)
    (hbelow : ∀ top ∈ below.head?, top.kind = .operator →
      ∃ waiting, grammar.operators.get? top.text = some waiting
        ∧ operator.yieldsTo waiting = false) :
    step grammar r x next
      = .ok {
          output := r.output ++ pending.map operatorInstruction
          stack := x :: below
          counters := r.counters
          previous := some .operator } := by
  simp only [step, hx, Reduction.operator, hknown, hstack]
  rw [releaseWhile_operators]
  · rfl
  · intro p hp
    obtain ⟨hkind, waiting, hwaiting, hyields⟩ := hpending p hp
    refine ⟨hkind, ?_⟩
    simp only [hkind, bne_self_eq_false, Bool.false_eq_true, ↓reduceIte, Registry.require,
      hwaiting, bind, Except.bind, pure, Except.pure, hyields]
  · intro top htop
    -- It stays because it binds less, or because it is no operator at all.
    by_cases hkind : top.kind = .operator
    · obtain ⟨waiting, hwaiting, hyields⟩ := hbelow top htop hkind
      simp only [hkind, bne_self_eq_false, Bool.false_eq_true, ↓reduceIte, Registry.require,
        hwaiting, bind, Except.bind, pure, Except.pure, hyields]
    · simp [hkind, pure, Except.pure]

/-- A comma ends an argument of the innermost call. -/
theorem step_comma {next : Option SegmentKind} {pending below : List Segment}
    {openParen function : Segment} (hx : x.kind = .comma)
    (hstack : r.stack = pending ++ openParen :: function :: below)
    (hopen : openParen.kind = .leftParen) (hfunction : function.kind = .function)
    (hpending : ∀ p ∈ pending, p.kind = .operator)
    (hprevious : r.previous ≠ some .leftParen ∧ r.previous ≠ some .comma) :
    step grammar r x next
      = .ok {
          output := r.output ++ pending.map operatorInstruction
          stack := openParen :: function :: below
          counters := r.counters
          previous := some .comma } := by
  simp only [step, hx, comma, releaseToParen_operators hstack hopen hpending, callOpen, hopen,
    hfunction, hprevious, beq_self_eq_true, Bool.and_self, Bool.not_true, Bool.false_eq_true,
    or_self, ↓reduceIte, bind, Except.bind, pure, Except.pure]

/-- A closing parenthesis ends a group. -/
theorem step_rightParen_group {next : Option SegmentKind} {pending below : List Segment}
    {openParen : Segment} (hx : x.kind = .rightParen)
    (hstack : r.stack = pending ++ openParen :: below) (hopen : openParen.kind = .leftParen)
    (hpending : ∀ p ∈ pending, p.kind = .operator)
    (hbelow : ∀ top ∈ below.head?, top.kind ≠ .function)
    (hprevious : r.previous ≠ some .comma) :
    step grammar r x next
      = .ok {
          output := r.output ++ pending.map operatorInstruction
          stack := below
          counters := r.counters
          previous := some .rightParen } := by
  simp only [step, hx, rightParen, releaseToParen_operators hstack hopen hpending, hprevious,
    ↓reduceIte, bind, Except.bind, pure, Except.pure]
  cases below with
  | nil => rfl
  | cons top below => simp [hbelow top rfl]

/-- A closing parenthesis ends a call, which takes its counter along. -/
theorem step_rightParen_call {next : Option SegmentKind} {pending below : List Segment}
    {openParen function : Segment} {count : Nat} {outer : List Nat} (hx : x.kind = .rightParen)
    (hstack : r.stack = pending ++ openParen :: function :: below)
    (hopen : openParen.kind = .leftParen) (hfunction : function.kind = .function)
    (hpending : ∀ p ∈ pending, p.kind = .operator) (hprevious : r.previous ≠ some .comma)
    (hcounters : r.counters = count :: outer)
    (hlimit : (count : Int) ≤ grammar.limits.arguments) :
    step grammar r x next
      = .ok {
          output := r.output ++ pending.map operatorInstruction
            ++ [.call function.text function.position count]
          stack := below
          counters := outer
          previous := some .rightParen } := by
  have hcheck : grammar.limits.checkArguments count = .ok () := by
    unfold Limits.checkArguments Limits.check
    rw [if_neg (by omega)]
  simp only [step, hx, rightParen, releaseToParen_operators hstack hopen hpending, hprevious,
    hfunction, release, hcounters, hcheck, ↓reduceIte, bind, Except.bind, pure, Except.pure]

-- ========================================================== what is refused

/-- A function without its parenthesis. -/
theorem step_function_unopened (hx : x.kind = .function) {next : Option SegmentKind}
    (hnext : next ≠ some .leftParen) :
    step grammar r x next = .error (issue grammar x (.functionWithoutParenthesis x.text)) := by
  simp [step, hx, function, hnext, bind, Except.bind, throw, throwThe, MonadExceptOf.throw]

/-- An operator that is not registered. -/
theorem step_operator_unknown {next : Option SegmentKind} (hx : x.kind = .operator)
    (hunknown : grammar.operators.get? x.text = none) :
    step grammar r x next = .error (issue grammar x (.unknownOperator x.text)) := by
  simp [step, hx, Reduction.operator, hunknown, bind, Except.bind, throw, throwThe,
    MonadExceptOf.throw]

/-- A comma that no call is around. -/
theorem step_comma_misplaced {next : Option SegmentKind} {r' : Reduction} (hx : x.kind = .comma)
    (hrelease : releaseToParen grammar r = .ok r') (hopen : callOpen r'.stack = false) :
    step grammar r x next = .error (issue grammar x .misplacedComma) := by
  simp [step, hx, comma, hrelease, hopen, bind, Except.bind, throw, throwThe, MonadExceptOf.throw]

/-- A comma behind nothing. -/
theorem step_comma_empty {next : Option SegmentKind} {pending below : List Segment}
    {openParen function : Segment} (hx : x.kind = .comma)
    (hstack : r.stack = pending ++ openParen :: function :: below)
    (hopen : openParen.kind = .leftParen) (hfunction : function.kind = .function)
    (hpending : ∀ p ∈ pending, p.kind = .operator)
    (hprevious : r.previous = some .leftParen ∨ r.previous = some .comma) :
    step grammar r x next = .error (issue grammar x (.emptyArgument function.text)) := by
  simp [step, hx, comma, releaseToParen_operators hstack hopen hpending, callOpen, hopen,
    hfunction, hprevious, emptyArgument, openFunction?, bind, Except.bind, throw, throwThe,
    MonadExceptOf.throw]

/-- A closing parenthesis with nothing to close. -/
theorem step_rightParen_unopened {next : Option SegmentKind} (hx : x.kind = .rightParen)
    (hstack : ∀ p ∈ r.stack, p.kind = .operator) :
    step grammar r x next = .error (issue grammar x .missingOpen) := by
  simp [step, hx, rightParen, releaseToParen_all hstack, bind, Except.bind, throw, throwThe,
    MonadExceptOf.throw]

/-- A closing parenthesis behind a comma. -/
theorem step_rightParen_empty {next : Option SegmentKind} {pending below : List Segment}
    {openParen function : Segment} (hx : x.kind = .rightParen)
    (hstack : r.stack = pending ++ openParen :: function :: below)
    (hopen : openParen.kind = .leftParen) (hpending : ∀ p ∈ pending, p.kind = .operator)
    (hprevious : r.previous = some .comma) :
    step grammar r x next = .error (issue grammar x (.emptyArgument function.text)) := by
  simp [step, hx, rightParen, releaseToParen_operators hstack hopen hpending, hprevious,
    emptyArgument, openFunction?, bind, Except.bind, throw, throwThe, MonadExceptOf.throw]

/-- A closing parenthesis behind too many arguments. -/
theorem step_rightParen_overfull {next : Option SegmentKind} {pending below : List Segment}
    {openParen function : Segment} {count : Nat} {outer : List Nat} (hx : x.kind = .rightParen)
    (hstack : r.stack = pending ++ openParen :: function :: below)
    (hopen : openParen.kind = .leftParen) (hfunction : function.kind = .function)
    (hpending : ∀ p ∈ pending, p.kind = .operator) (hprevious : r.previous ≠ some .comma)
    (hcounters : r.counters = count :: outer) (hlimit : grammar.limits.arguments < count) :
    step grammar r x next = .error
      (.bare (.limitExceeded "max_function_args" grammar.limits.arguments count)) := by
  have hcheck : grammar.limits.checkArguments count = .error
      (.bare (.limitExceeded "max_function_args" grammar.limits.arguments count)) := by
    unfold Limits.checkArguments Limits.check
    rw [if_pos hlimit]
  simp [step, hx, rightParen, releaseToParen_operators hstack hopen hpending, hprevious,
    hfunction, release, hcounters, hcheck, bind, Except.bind]

-- ================================================================ the end

/-- At the end the operators that still wait are released. -/
theorem finish_operators (hstack : ∀ p ∈ r.stack, p.kind = .operator) :
    finish grammar r
      = .ok { r with
          stack := []
          output := r.output ++ r.stack.map operatorInstruction } := by
  unfold finish
  rw [← List.append_nil r.stack, releaseWhile_operators]
  · simp
  · intro p hp
    refine ⟨hstack p hp, ?_⟩
    rw [if_neg (by simp [hstack p hp])]
  · simp

/-- An open parenthesis that nothing closed. -/
theorem finish_open {pending below : List Segment} (hstack : r.stack = pending ++ x :: below)
    (hx : x.kind = .leftParen) (hpending : ∀ p ∈ pending, p.kind = .operator) :
    finish grammar r = .error (issue grammar x .missingClose) := by
  unfold finish
  rw [hstack]
  refine releaseWhile_error ?_ (if_pos hx)
  intro p hp
  refine ⟨hpending p hp, ?_⟩
  rw [if_neg (by simp [hpending p hp])]

end UnitCalc.Reduction
