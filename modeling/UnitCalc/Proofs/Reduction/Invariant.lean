/-
What a reduction keeps, whatever it is given.

Its stack is the open parentheses, each call's with the function beneath it,
and operators between them, of which none releases the next one below
(`Nested`); there is a counter for every call. Only right behind a function
the stack is one segment ahead: the function waits for its parenthesis
(`Sound`).

# One step

A step has three ends and no others (`Stepped`): the segment is taken in, it is
refused at its own place, or a call has more arguments than the limit admits.
Which of the first two it is, is told by the open parentheses alone
(`bracketsBehind`) and by what `Placed` asks of the segment, so that these two
together say what a reduction accepts. A missing counter, and whatever else the
program guards against without ever meeting it, is none of the ends.

Each kind of segment has a lemma. It splits the stack where the segment
reaches (`Nested.yielding` for an operator, `Nested.split` for a comma or a
closing parenthesis) and then has an equation of `Proofs/Reduction/Steps` in
every case.

# Nothing is lost

What is taken in is neither lost nor doubled: it is on the stack or has become
an instruction (`carried`). This is kept as a permutation, since a step moves
segments from the one to the other.

# Whole lists

A run puts its steps together, by induction on the list (`Sound.run`), and at
the end an open parenthesis is refused (`reduced`). All that is proved of
arbitrary lists starts from `Reduction.reduced`.
-/
import UnitCalc.Proofs.Grammar.Brackets
import UnitCalc.Proofs.Reduction.Simulation

namespace UnitCalc

/-- The segment that an instruction was made of. -/
def Instruction.segment : Instruction → Segment
  | .value text position => ⟨.literal, text, position⟩
  | .operator symbol position => ⟨.operator, symbol, position⟩
  | .call name position _ => ⟨.function, name, position⟩

theorem Instruction.segment_value {x : Segment} (hx : x.kind = .literal) :
    (Instruction.value x.text x.position).segment = x := by
  rw [Instruction.segment, ← hx]

theorem Instruction.segment_call {f : Segment} (hf : f.kind = .function) (count : Nat) :
    (Instruction.call f.text f.position count).segment = f := by
  rw [Instruction.segment, ← hf]

/-- Whether a segment becomes an instruction. -/
def Segment.isCarried (x : Segment) : Bool :=
  x.kind == .literal || x.kind == .operator || x.kind == .function

namespace Reduction

variable {grammar : Grammar} {opened : List Bool} {r : Reduction} {x : Segment}
  {next : Option SegmentKind}

-- ============================================================== the stack

/-- A stack with its open parentheses, the innermost first, each with
whether it is a call's. -/
inductive Nested (grammar : Grammar) : List Bool → List Segment → Prop
  | empty : Nested grammar [] []
  | operator {opened : List Bool} {stack : List Segment} {x : Segment} {operator : OperatorSymbol}
      (below : Nested grammar opened stack) (kind : x.kind = .operator)
      (known : grammar.operators.get? x.text = some operator)
      (kept : ∀ top ∈ stack.head?, top.kind = .operator →
        ∃ waiting, grammar.operators.get? top.text = some waiting
          ∧ operator.yieldsTo waiting = false) :
      Nested grammar opened (x :: stack)
  | group {opened : List Bool} {stack : List Segment} {o : Segment}
      (below : Nested grammar opened stack) (opens : o.kind = .leftParen) :
      Nested grammar (false :: opened) (o :: stack)
  | call {opened : List Bool} {stack : List Segment} {o f : Segment}
      (below : Nested grammar opened stack) (opens : o.kind = .leftParen)
      (name : f.kind = .function) : Nested grammar (true :: opened) (o :: f :: stack)

namespace Nested

variable {stack : List Segment}

theorem noFunction (h : Nested grammar opened stack) :
    ∀ top ∈ stack.head?, top.kind ≠ .function := by
  intro top htop
  cases h with
  | empty => simp at htop
  | operator _ hx _ _ =>
      obtain rfl := Option.some.inj htop
      simp [hx]
  | group _ ho =>
      obtain rfl := Option.some.inj htop
      simp [ho]
  | call _ ho _ =>
      obtain rfl := Option.some.inj htop
      simp [ho]

/-- Where a call is open on top of the stack, it is the innermost
parenthesis. -/
theorem head_of_callOpen (h : Nested grammar opened stack) (hopen : callOpen stack = true) :
    opened.head? = some true := by
  cases h with
  | empty => simp [callOpen] at hopen
  | operator _ hx _ _ =>
      rw [callOpen_of_ne_leftParen (by simp [hx])] at hopen
      cases hopen
  | group hbelow _ =>
      rw [callOpen_group hbelow.noFunction] at hopen
      cases hopen
  | call _ _ _ => rfl

/-- An operator parts the stack in those it releases and the rest. -/
theorem yielding (h : Nested grammar opened stack) (operator : OperatorSymbol) :
    ∃ pending below, stack = pending ++ below
      ∧ (∀ p ∈ pending, p.kind = .operator
        ∧ ∃ waiting, grammar.operators.get? p.text = some waiting
          ∧ operator.yieldsTo waiting = true)
      ∧ (∀ top ∈ below.head?, top.kind = .operator →
        ∃ waiting, grammar.operators.get? top.text = some waiting
          ∧ operator.yieldsTo waiting = false)
      ∧ Nested grammar opened below := by
  induction h with
  | empty => exact ⟨[], [], rfl, by simp, by simp, .empty⟩
  | @operator opened stack x waiting hbelow hx hknown hkept ih =>
      -- If the topmost operator stays, none below it is asked.
      cases hyields : operator.yieldsTo waiting with
      | true =>
          obtain ⟨pending, below, rfl, hpending, hstop, hrest⟩ := ih
          refine ⟨x :: pending, below, rfl, ?_, hstop, hrest⟩
          intro p hp
          rcases List.mem_cons.1 hp with rfl | hp
          · exact ⟨hx, waiting, hknown, hyields⟩
          · exact hpending p hp
      | false =>
          refine ⟨[], x :: stack, rfl, by simp, ?_, .operator hbelow hx hknown hkept⟩
          intro top htop _
          obtain rfl := Option.some.inj htop
          exact ⟨waiting, hknown, hyields⟩
  | @group opened stack o hbelow ho _ =>
      refine ⟨[], o :: stack, rfl, by simp, ?_, .group hbelow ho⟩
      intro top htop hoperator
      obtain rfl := Option.some.inj htop
      rw [ho] at hoperator
      cases hoperator
  | @call opened stack o f hbelow ho hf _ =>
      refine ⟨[], o :: f :: stack, rfl, by simp, ?_, .call hbelow ho hf⟩
      intro top htop hoperator
      obtain rfl := Option.some.inj htop
      rw [ho] at hoperator
      cases hoperator

/-- A stack is operators on top of the innermost parenthesis. -/
theorem split (h : Nested grammar opened stack) :
    ∃ pending below, stack = pending ++ below ∧ (∀ p ∈ pending, p.kind = .operator)
      ∧ (opened = [] ∧ below = []
        ∨ (∃ o rest outer, opened = false :: outer ∧ below = o :: rest ∧ o.kind = .leftParen
          ∧ Nested grammar outer rest)
        ∨ ∃ o f rest outer, opened = true :: outer ∧ below = o :: f :: rest
          ∧ o.kind = .leftParen ∧ f.kind = .function ∧ Nested grammar outer rest) := by
  induction h with
  | empty => exact ⟨[], [], rfl, by simp, Or.inl ⟨rfl, rfl⟩⟩
  | operator _ hx _ _ ih =>
      obtain ⟨pending, below, rfl, hpending, hbelow⟩ := ih
      refine ⟨_ :: pending, below, rfl, ?_, hbelow⟩
      intro p hp
      rcases List.mem_cons.1 hp with rfl | hp
      · exact hx
      · exact hpending p hp
  | group hbelow ho _ =>
      exact ⟨[], _, rfl, by simp, Or.inr (Or.inl ⟨_, _, _, rfl, rfl, ho, hbelow⟩)⟩
  | call hbelow ho hf _ =>
      exact ⟨[], _, rfl, by simp, Or.inr (Or.inr ⟨_, _, _, _, rfl, rfl, ho, hf, hbelow⟩)⟩

end Nested

-- ============================================================== the state

/-- A reduction between operands, or right behind a function. -/
inductive Sound (grammar : Grammar) (opened : List Bool) (r : Reduction) : Prop
  | between (stack : Nested grammar opened r.stack)
      (counted : r.counters.length = opened.count true)
      (notNamed : r.previous ≠ some .function)
      (comma : r.previous = some .comma → opened.head? = some true) : Sound grammar opened r
  | named {f : Segment} {below : List Segment} (stack : Nested grammar opened below)
      (top : r.stack = f :: below) (name : f.kind = .function)
      (counted : r.counters.length = opened.count true + 1)
      (behind : r.previous = some .function) : Sound grammar opened r

theorem length_begun (stack : List Segment) (counters : List Nat) :
    (begun stack counters).length = counters.length := by
  unfold begun
  split
  · exact List.length_modifyHead
  · rfl

/-- An argument that begins has a counter. -/
theorem Sound.counters_ne_nil (h : Sound grammar opened r) (hopen : callOpen r.stack = true) :
    r.counters ≠ [] := by
  cases h with
  | between hstack hcounted _ _ =>
      have hhead := hstack.head_of_callOpen hopen
      obtain ⟨outer, rfl⟩ := List.head?_eq_some_iff.1 hhead
      intro hnil
      rw [hnil] at hcounted
      simp at hcounted
  | named _ htop hf _ _ =>
      rw [htop, callOpen_of_ne_leftParen (by simp [hf])] at hopen
      cases hopen

/-- The segments that are instructions already and those that wait to be. -/
def carried (output : List Instruction) (stack : List Segment) : List Segment :=
  output.map Instruction.segment ++ stack.filter Segment.isCarried

/-- The instructions of operators were made of them. -/
theorem map_segment_operators {pending : List Segment}
    (hpending : ∀ p ∈ pending, p.kind = .operator) :
    (pending.map operatorInstruction).map Instruction.segment = pending := by
  rw [List.map_map]
  refine (List.map_congr_left ?_).trans (List.map_id pending)
  intro p hp
  obtain ⟨kind, text, position⟩ := p
  obtain rfl : kind = .operator := hpending _ hp
  rfl

/-- Operators that are released are carried on. -/
theorem carried_operators {pending stack : List Segment} (output : List Instruction)
    (hpending : ∀ p ∈ pending, p.kind = .operator) :
    carried (output ++ pending.map operatorInstruction) stack
      = carried output (pending ++ stack) := by
  have hsegments := map_segment_operators hpending
  have hkept : pending.filter Segment.isCarried = pending := by
    rw [List.filter_eq_self]
    intro p hp
    simp [Segment.isCarried, hpending p hp]
  unfold carried
  rw [List.map_append, hsegments, List.filter_append, hkept, List.append_assoc]

/-- What goes on the stack is carried. -/
theorem carried_push (output : List Instruction) (pending stack : List Segment) (x : Segment) :
    (carried output (pending ++ x :: stack)).Perm
      (carried output (pending ++ stack) ++ [x].filter Segment.isCarried) := by
  have hmiddle : (pending ++ x :: stack).Perm ((pending ++ stack) ++ [x]) :=
    List.perm_middle.trans (List.perm_append_singleton x (pending ++ stack)).symm
  unfold carried
  rw [List.append_assoc, ← List.filter_append]
  exact (hmiddle.filter _).append_left _

/-- What is written goes on being carried. -/
theorem carried_write (output : List Instruction) (i : Instruction) (stack : List Segment) :
    (carried (output ++ [i]) stack).Perm (carried output stack ++ [i.segment]) := by
  unfold carried
  rw [List.map_append, List.append_assoc, List.append_assoc]
  exact List.perm_append_comm.append_left _

/-- The end of a call moves its function from the stack to the output. -/
theorem carried_call {pending rest : List Segment} {o f : Segment} (output : List Instruction)
    (hpending : ∀ p ∈ pending, p.kind = .operator) (ho : o.kind = .leftParen)
    (hf : f.kind = .function) (count : Nat) :
    (carried (output ++ pending.map operatorInstruction ++ [.call f.text f.position count])
      rest).Perm (carried output (pending ++ o :: f :: rest)) := by
  have hkept : [f].filter Segment.isCarried = [f] := by
    simp [Segment.isCarried, hf]
  have hparen : carried output (pending ++ o :: f :: rest)
      = carried output (pending ++ f :: rest) := by
    simp [carried, Segment.isCarried, ho]
  have hwrite := carried_write (output ++ pending.map operatorInstruction)
    (.call f.text f.position count) rest
  have hpush := carried_push output pending rest f
  rw [Instruction.segment_call hf, carried_operators output hpending] at hwrite
  rw [hkept] at hpush
  rw [hparen]
  exact hwrite.trans hpush.symm

/-- What is asked of a segment besides that it nests. -/
def Placed (grammar : Grammar) (x : Segment) (next : Option SegmentKind) : Prop :=
  (x.kind = .operator → (grammar.operators.get? x.text).isSome)
    ∧ (x.kind = .function → next = some .leftParen)

/-- The ends of a step. -/
inductive Stepped (grammar : Grammar) (opened : List Bool) (r : Reduction) (x : Segment)
    (next : Option SegmentKind) : Except Fault Reduction → Prop
  | taken {r' : Reduction} {inner : List Bool} (placed : Placed grammar x next)
      (nests : bracketsBehind r.previous opened x.kind = some inner)
      (previous : r'.previous = some x.kind) (sound : Sound grammar inner r')
      (carries : (carried r'.output r'.stack).Perm
        (carried r.output r.stack ++ [x].filter Segment.isCarried)) :
      Stepped grammar opened r x next (.ok r')
  | refused (reason : ReductionIssue) (guarded : reason ≠ .malformedNesting)
      (because : ¬ (Placed grammar x next ∧ (bracketsBehind r.previous opened x.kind).isSome)) :
      Stepped grammar opened r x next (.error (issue grammar x reason))
  | overfull {count : Nat} (exceeds : grammar.limits.arguments < count) :
      Stepped grammar opened r x next
        (.error (.bare (.limitExceeded "max_function_args" grammar.limits.arguments count)))

-- ============================================================ the segments

section

variable (h : Sound grammar opened r)
include h

/-- Behind a function only its parenthesis comes. -/
theorem Sound.between_of_ne (hnamed : r.previous = some .function → x.kind = .leftParen)
    (hx : x.kind ≠ .leftParen) :
    Nested grammar opened r.stack ∧ r.counters.length = opened.count true
      ∧ (r.previous = some .comma → opened.head? = some true) := by
  cases h with
  | between hstack hcounted _ hcomma => exact ⟨hstack, hcounted, hcomma⟩
  | named _ _ _ _ hbehind => exact absurd (hnamed hbehind) hx

theorem Sound.step_literal (hnamed : r.previous = some .function → x.kind = .leftParen)
    (hx : x.kind = .literal) : Stepped grammar opened r x next (step grammar r x next) := by
  obtain ⟨hstack, hcounted, -⟩ := h.between_of_ne hnamed (by simp [hx])
  have hcarried : [x].filter Segment.isCarried = [x] := by
    simp [Segment.isCarried, hx]
  rw [Reduction.step_literal hx h.counters_ne_nil]
  refine .taken ⟨by simp [hx], by simp [hx]⟩ (by rw [hx]; rfl) (by rw [hx]) ?_ ?_
  · exact .between hstack (by rw [length_begun, hcounted]) (by simp) (by simp)
  · have hwrite := carried_write r.output (.value x.text x.position) r.stack
    rw [Instruction.segment_value hx] at hwrite
    rw [hcarried]
    exact hwrite

theorem Sound.step_function (hnamed : r.previous = some .function → x.kind = .leftParen)
    (hx : x.kind = .function) : Stepped grammar opened r x next (step grammar r x next) := by
  obtain ⟨hstack, hcounted, -⟩ := h.between_of_ne hnamed (by simp [hx])
  by_cases hnext : next = some .leftParen
  · rw [hnext, Reduction.step_function hx h.counters_ne_nil, ← hnext]
    refine .taken ⟨by simp [hx], fun _ => hnext⟩ (by rw [hx]; rfl) (by rw [hx]) ?_
      (carried_push r.output [] r.stack x)
    refine .named hstack rfl hx ?_ rfl
    rw [List.length_cons, length_begun, hcounted]
  · rw [step_function_unopened hx hnext]
    exact .refused _ (by simp) fun hplaced => hnext (hplaced.1.2 hx)

theorem Sound.step_operator (hnamed : r.previous = some .function → x.kind = .leftParen)
    (hx : x.kind = .operator) : Stepped grammar opened r x next (step grammar r x next) := by
  obtain ⟨hstack, hcounted, -⟩ := h.between_of_ne hnamed (by simp [hx])
  cases hknown : grammar.operators.get? x.text with
  | none =>
      rw [step_operator_unknown hx hknown]
      refine .refused _ (by simp) fun hplaced => ?_
      have hsome := hplaced.1.1 hx
      simp [hknown] at hsome
  | some operator =>
      obtain ⟨pending, below, hsplit, hpending, hbelow, hrest⟩ := hstack.yielding operator
      rw [Reduction.step_operator hx hknown hsplit hpending hbelow]
      refine .taken ⟨fun _ => by simp [hknown], by simp [hx]⟩ (by rw [hx]; rfl) (by rw [hx]) ?_ ?_
      · exact .between (.operator hrest hx hknown hbelow) hcounted (by simp) (by simp)
      · rw [carried_operators r.output fun p hp => (hpending p hp).1, hsplit]
        exact carried_push r.output pending below x

theorem Sound.step_leftParen (hx : x.kind = .leftParen) :
    Stepped grammar opened r x next (step grammar r x next) := by
  rw [Reduction.step_leftParen hx h.counters_ne_nil]
  refine .taken ⟨by simp [hx], by simp [hx]⟩ (by rw [hx]; rfl) (by rw [hx]) ?_
    (carried_push r.output [] r.stack x)
  cases h with
  | between hstack hcounted hprevious _ =>
      have hgroup : (r.previous == some .function) = false := by simpa using hprevious
      rw [hgroup]
      refine .between (.group hstack hx) ?_ (by simp) (by simp)
      rw [length_begun, hcounted]
      simp
  | named hstack htop hf hcounted hbehind =>
      have hcall : (r.previous == some .function) = true := by simpa using hbehind
      rw [hcall]
      refine .between ?_ ?_ (by simp) (by simp)
      · rw [htop]
        exact .call hstack hx hf
      · rw [length_begun, hcounted, List.count_cons_self]

/-- A comma, by the innermost open parenthesis. -/
theorem Sound.step_comma (hnamed : r.previous = some .function → x.kind = .leftParen)
    (hx : x.kind = .comma) : Stepped grammar opened r x next (step grammar r x next) := by
  obtain ⟨hstack, hcounted, -⟩ := h.between_of_ne hnamed (by simp [hx])
  obtain ⟨pending, below, hsplit, hpending, hbelow⟩ := hstack.split
  -- Nothing is open, or a group is innermost, or a call is.
  rcases hbelow with ⟨rfl, rfl⟩ | ⟨o, rest, outer, rfl, rfl, ho, hrest⟩
    | ⟨o, f, rest, outer, rfl, rfl, ho, hf, hrest⟩
  · rw [List.append_nil] at hsplit
    rw [← hsplit] at hpending
    rw [step_comma_misplaced hx (releaseToParen_all hpending) rfl]
    exact .refused _ (by simp) (by simp [hx, bracketsBehind])
  · rw [step_comma_misplaced hx (releaseToParen_operators hsplit ho hpending)
      (callOpen_group hrest.noFunction)]
    exact .refused _ (by simp) (by simp [hx, bracketsBehind])
  · by_cases hprevious : r.previous = some .leftParen ∨ r.previous = some .comma
    · rw [step_comma_empty hx hsplit ho hf hpending hprevious]
      exact .refused _ (by simp) (by simp [hx, bracketsBehind, hprevious])
    · rw [Reduction.step_comma hx hsplit ho hf hpending (not_or.1 hprevious)]
      refine .taken ⟨by simp [hx], by simp [hx]⟩ ?_ (by rw [hx])
        (.between (.call hrest ho hf) hcounted (by simp) (by simp)) ?_
      · simp [hx, bracketsBehind, hprevious]
      · rw [carried_operators r.output hpending, hsplit]
        simp [Segment.isCarried, hx]

/-- A closing parenthesis, by the innermost open one. -/
theorem Sound.step_rightParen (hnamed : r.previous = some .function → x.kind = .leftParen)
    (hx : x.kind = .rightParen) : Stepped grammar opened r x next (step grammar r x next) := by
  obtain ⟨hstack, hcounted, hcomma⟩ := h.between_of_ne hnamed (by simp [hx])
  obtain ⟨pending, below, hsplit, hpending, hbelow⟩ := hstack.split
  have hplaced : Placed grammar x next := ⟨by simp [hx], by simp [hx]⟩
  -- Nothing is open, or a group is innermost, or a call is.
  rcases hbelow with ⟨rfl, rfl⟩ | ⟨o, rest, outer, rfl, rfl, ho, hrest⟩
    | ⟨o, f, rest, outer, rfl, rfl, ho, hf, hrest⟩
  · rw [List.append_nil] at hsplit
    rw [← hsplit] at hpending
    rw [step_rightParen_unopened hx hpending]
    exact .refused _ (by simp) (by simp [hx, bracketsBehind])
  · -- A comma would have a call around it.
    have hprevious : r.previous ≠ some .comma := by
      intro hprevious
      have hcall := hcomma hprevious
      simp at hcall
    rw [Reduction.step_rightParen_group hx hsplit ho hpending hrest.noFunction hprevious]
    refine .taken hplaced ?_ (by rw [hx]) (.between hrest ?_ (by simp) (by simp)) ?_
    · simp [hx, bracketsBehind, hprevious]
    · rw [hcounted]
      simp
    · rw [carried_operators r.output hpending, hsplit]
      simp [carried, Segment.isCarried, hx, ho]
  · by_cases hprevious : r.previous = some .comma
    · rw [step_rightParen_empty hx hsplit ho hpending hprevious]
      exact .refused _ (by simp) (by simp [hx, bracketsBehind, hprevious])
    · rw [List.count_cons_self] at hcounted
      obtain ⟨count, counters, hcounters⟩ := List.exists_cons_of_length_eq_add_one hcounted
      rw [hcounters, List.length_cons] at hcounted
      by_cases hlimit : (count : Int) ≤ grammar.limits.arguments
      · rw [Reduction.step_rightParen_call hx hsplit ho hf hpending hprevious hcounters hlimit]
        refine .taken hplaced ?_ (by rw [hx])
          (.between hrest (by simpa using hcounted) (by simp) (by simp)) ?_
        · simp [hx, bracketsBehind, hprevious]
        · have hnone : [x].filter Segment.isCarried = [] := by simp [Segment.isCarried, hx]
          rw [hnone, List.append_nil, hsplit]
          exact carried_call r.output hpending ho hf count
      · rw [step_rightParen_overfull hx hsplit ho hf hpending hprevious hcounters
          (Int.not_le.1 hlimit)]
        exact .overfull (Int.not_le.1 hlimit)

/-- Every segment is taken in, refused, or ends a call that is too long. -/
theorem Sound.step (hnamed : r.previous = some .function → x.kind = .leftParen) :
    Stepped grammar opened r x next (step grammar r x next) := by
  cases hx : x.kind with
  | literal => exact h.step_literal hnamed hx
  | operator => exact h.step_operator hnamed hx
  | function => exact h.step_function hnamed hx
  | leftParen => exact h.step_leftParen hx
  | rightParen => exact h.step_rightParen hnamed hx
  | comma => exact h.step_comma hnamed hx

end

-- ================================================================ whole runs

/-- What is asked of some segments besides that they nest. -/
def AllPlaced (grammar : Grammar) : List Segment → Prop
  | [] => True
  | x :: more => Placed grammar x (more.head?.map Segment.kind) ∧ AllPlaced grammar more

/-- The ends of a run. -/
inductive Ran (grammar : Grammar) (opened : List Bool) (r : Reduction)
    (segments : List Segment) : Except Fault Reduction → Prop
  | taken {r' : Reduction} {inner : List Bool} (placed : AllPlaced grammar segments)
      (nests : bracketsAfter r.previous opened segments = some inner)
      (notNamed : r'.previous ≠ some .function) (sound : Sound grammar inner r')
      (carries : (carried r'.output r'.stack).Perm
        (carried r.output r.stack ++ segments.filter Segment.isCarried)) :
      Ran grammar opened r segments (.ok r')
  | refused {x : Segment} (reason : ReductionIssue) (guarded : reason ≠ .malformedNesting)
      (among : x ∈ segments)
      (because : ¬ (AllPlaced grammar segments
        ∧ (bracketsAfter r.previous opened segments).isSome)) :
      Ran grammar opened r segments (.error (issue grammar x reason))
  | overfull {count : Nat} (exceeds : grammar.limits.arguments < count) :
      Ran grammar opened r segments
        (.error (.bare (.limitExceeded "max_function_args" grammar.limits.arguments count)))

/-- A run ends as its steps do. -/
theorem Sound.run {segments : List Segment} :
    ∀ {opened : List Bool} {r : Reduction}, Sound grammar opened r →
      (r.previous = some .function → segments.head?.map Segment.kind = some .leftParen) →
      Ran grammar opened r segments (run grammar r segments) := by
  induction segments with
  | nil =>
      intro opened r h hnamed
      exact .taken trivial rfl (fun hprevious => by simpa using hnamed hprevious) h (by simp)
  | cons x more ih =>
      intro opened r h hnamed
      have hstep : Stepped grammar opened r x (more.head?.map Segment.kind)
          (Reduction.step grammar r x (more.head?.map Segment.kind)) :=
        h.step fun hprevious => by simpa using hnamed hprevious
      rw [Reduction.run]
      generalize Reduction.step grammar r x (more.head?.map Segment.kind) = result at hstep
      cases hstep with
      | refused reason hguarded hbecause =>
          refine .refused reason hguarded List.mem_cons_self fun hall => hbecause ⟨hall.1.1, ?_⟩
          have hsome := hall.2
          rw [bracketsAfter, Option.isSome_bind] at hsome
          exact Option.isSome_of_any hsome
      | overfull hexceeds => exact .overfull hexceeds
      | @taken r' inner hplaced hnests hprevious hsound hcarries =>
          have hrest : Ran grammar inner r' more (Reduction.run grammar r' more) := by
            refine ih hsound fun hfunction => hplaced.2 ?_
            rw [hprevious] at hfunction
            exact Option.some.inj hfunction
          show Ran grammar opened r (x :: more) (Reduction.run grammar r' more)
          generalize Reduction.run grammar r' more = result at hrest
          have hbrackets : bracketsAfter r.previous opened (x :: more)
              = bracketsAfter r'.previous inner more := by
            rw [bracketsAfter, hnests, Option.bind_some, hprevious]
          -- The first step was fine, so the run ends as the rest of it does.
          cases hrest with
          | taken hplacedMore hnestsMore hnotNamed hsoundMore hcarriesMore =>
              refine .taken ⟨hplaced, hplacedMore⟩ (hbrackets.trans hnestsMore) hnotNamed
                hsoundMore ?_
              have hall : (x :: more).filter Segment.isCarried
                  = [x].filter Segment.isCarried ++ more.filter Segment.isCarried := by
                rw [← List.filter_append, List.singleton_append]
              rw [hall, ← List.append_assoc]
              exact hcarriesMore.trans (hcarries.append_right _)
          | refused reason hguarded hmem hbecause =>
              refine .refused reason hguarded (List.mem_cons_of_mem x hmem)
                fun hall => hbecause ?_
              rw [hbrackets] at hall
              exact ⟨hall.1.2, hall.2⟩
          | overfull hexceeds => exact .overfull hexceeds

/-- Nothing has been taken in. -/
theorem Sound.start : Sound grammar [] {} :=
  .between .empty rfl (by simp) (by simp)

-- ==================================================================== the end

/-- At the end an open parenthesis is refused. -/
theorem Nested.finish (h : Nested grammar opened r.stack) :
    opened = [] ∧ (∀ p ∈ r.stack, p.kind = .operator) ∧ finish grammar r
        = .ok { r with stack := [], output := r.output ++ r.stack.map operatorInstruction }
      ∨ opened ≠ [] ∧ ∃ o ∈ r.stack,
        finish grammar r = .error (issue grammar o .missingClose) := by
  obtain ⟨pending, below, hsplit, hpending, hbelow⟩ := h.split
  rcases hbelow with ⟨rfl, rfl⟩ | ⟨o, rest, outer, rfl, rfl, ho, -⟩
    | ⟨o, f, rest, outer, rfl, rfl, ho, -, -⟩
  · left
    rw [List.append_nil] at hsplit
    rw [← hsplit] at hpending
    exact ⟨rfl, hpending, finish_operators hpending⟩
  · exact Or.inr ⟨by simp, o, by simp [hsplit], finish_open hsplit ho hpending⟩
  · exact Or.inr ⟨by simp, o, by simp [hsplit], finish_open hsplit ho hpending⟩

/-- The ends of a reduction. -/
inductive Reduced (grammar : Grammar) (segments : List Segment) :
    Except Fault (List Instruction) → Prop
  | taken (instructions : List Instruction) (placed : AllPlaced grammar segments)
      (nests : Nests segments)
      (carries : (instructions.map Instruction.segment).Perm
        (segments.filter Segment.isCarried)) :
      Reduced grammar segments (.ok instructions)
  | refused (x : Segment) (reason : ReductionIssue) (guarded : reason ≠ .malformedNesting)
      (because : ¬ (AllPlaced grammar segments ∧ Nests segments)) :
      Reduced grammar segments (.error (issue grammar x reason))
  | overfull {count : Nat} (exceeds : grammar.limits.arguments < count) :
      Reduced grammar segments
        (.error (.bare (.limitExceeded "max_function_args" grammar.limits.arguments count)))

/-- A reduction ends as its run does, unless a parenthesis is open at the
end. -/
theorem reduced (grammar : Grammar) (segments : List Segment) :
    Reduced grammar segments (Instruction.ofSegments? grammar segments) := by
  have hrun : Ran grammar [] {} segments (run grammar {} segments) :=
    Sound.start.run (by simp)
  unfold Instruction.ofSegments?
  generalize run grammar {} segments = result at hrun
  cases hrun with
  | refused reason hguarded _ hbecause =>
      refine .refused _ reason hguarded fun hall => hbecause ⟨hall.1, ?_⟩
      have hclosed : bracketsAfter none [] segments = some [] := hall.2
      rw [hclosed]
      rfl
  | overfull hexceeds => exact .overfull hexceeds
  | @taken r' inner hplaced hnests hnotNamed hsound hcarries =>
      cases hsound with
      | named _ _ _ _ hbehind => exact absurd hbehind hnotNamed
      | between hstack _ _ _ =>
          rcases hstack.finish with ⟨rfl, hoperators, hfinish⟩ | ⟨hopen, o, -, hfinish⟩
          · simp only [bind, Except.bind, hfinish]
            refine .taken _ hplaced hnests ?_
            have hwritten : carried (r'.output ++ r'.stack.map operatorInstruction) []
                = carried r'.output (r'.stack ++ []) := carried_operators r'.output hoperators
            rw [List.append_nil] at hwritten
            rw [← hwritten] at hcarries
            simpa [carried] using hcarries
          · simp only [bind, Except.bind, hfinish]
            refine .refused o .missingClose (by simp) fun hall => hopen ?_
            have hclosed : bracketsAfter none [] segments = some [] := hall.2
            rw [hnests] at hclosed
            exact Option.some.inj hclosed

end Reduction

end UnitCalc
