/-
Reducing what a pair of parentheses encloses.

The open parenthesis stays where it is on the stack, with all that is below
it, until its partner comes: what is taken in meanwhile is either written or
waits above, as an operator (`Passed`). And the counter of the parenthesis, if
it is a call's, goes up by the operands that are leading.

# The induction

It goes by the way the segments are built up (`Matched`, `passes_of_matched`).
Inner groups and calls leave the stack as it was; outside of them, an operand
is counted exactly where no operator waits above the parenthesis, and an
operator waits there from its own segment up to the next comma. So the state
of the stack is the bit by which leading operands are told along the list
(`begins`).

# What comes out

The instructions of a call come out as what was there before, those of the
segments inside, the call itself with its count, and the rest
(`ofSegments_call`). Which of the segments in front of the call have been
written by then depends on the operators that wait, so that part is a
permutation with something left out. Since the output is only ever appended to,
the values stay in order (`Adds`, `ofSegments_values`).

`Proofs/Reduction/Order` makes of this an order of indices.
-/
import UnitCalc.Proofs.Grammar.Levels
import UnitCalc.Proofs.Reduction.Acceptance
import UnitCalc.Proofs.Reduction.Inversion

namespace UnitCalc

namespace Reduction

variable {grammar : Grammar} {r r' : Reduction} {x : Segment} {next : Option SegmentKind}

-- ======================================================== what is appended

/-- Whether output is only appended to, and which values are. -/
def Adds (values : List Segment) (r r' : Reduction) : Prop :=
  ∃ more, r'.output = r.output ++ more
    ∧ (more.map Instruction.segment).filter (·.kind == .literal) = values

namespace Adds

theorem refl (h : r'.output = r.output) : Adds [] r r' :=
  ⟨[], by rw [h, List.append_nil], rfl⟩

theorem trans {values values' : List Segment} {r'' : Reduction} (h : Adds values r r')
    (h' : Adds values' r' r'') : Adds (values ++ values') r r'' := by
  obtain ⟨more, houtput, hmore⟩ := h
  obtain ⟨more', houtput', hmore'⟩ := h'
  refine ⟨more ++ more', by rw [houtput', houtput, List.append_assoc], ?_⟩
  rw [List.map_append, List.filter_append, hmore, hmore']

end Adds

theorem release_adds (h : release grammar r x = .ok r') : Adds [] r r' := by
  rcases release_eq_ok h with ⟨-, _, _, -, rfl⟩ | ⟨-, rfl⟩ <;> exact ⟨[_], rfl, rfl⟩

theorem releaseWhile_adds {test : Segment → Except Fault Bool} {stack : List Segment} :
    ∀ {r : Reduction}, releaseWhile grammar test stack r = .ok r' → Adds [] r r' := by
  induction stack with
  | nil =>
      intro r h
      cases h
      exact .refl rfl
  | cons top below ih =>
      intro r h
      rw [releaseWhile] at h
      obtain ⟨passes, -, h⟩ := bind_eq_ok.1 h
      cases passes with
      | true =>
          obtain ⟨released, hreleased, h⟩ := bind_eq_ok.1 h
          have htop : Adds [] { r with stack := below } released := release_adds hreleased
          exact htop.trans (ih h)
      | false =>
          cases h
          exact .refl rfl

/-- A step appends the value of a literal and no other. -/
theorem step_adds (h : step grammar r x next = .ok r') :
    Adds ([x].filter (·.kind == .literal)) r r' := by
  by_cases hx : x.kind = .literal
  · rw [step_literal_ok hx h]
    refine ⟨[.value x.text x.position], rfl, ?_⟩
    rw [List.map_singleton, Instruction.segment_value hx]
  · rw [List.filter_cons_of_neg (by simpa using hx), List.filter_nil]
    cases hkind : x.kind with
    | literal => exact absurd hkind hx
    | function =>
        rw [step_function_ok hkind h]
        exact .refl rfl
    | leftParen =>
        rw [step_leftParen_ok hkind h]
        exact .refl rfl
    | operator =>
        obtain ⟨test, released, -, hreleased, rfl⟩ := step_operator_ok hkind h
        have hadds : Adds [] r released := releaseWhile_adds hreleased
        exact hadds
    | comma =>
        obtain ⟨released, hreleased, rfl⟩ := step_comma_ok hkind h
        have hadds : Adds [] r released := releaseWhile_adds hreleased
        exact hadds
    | rightParen =>
        obtain ⟨released, o, below, hreleased, -, hbehind⟩ := step_rightParen_ok hkind h
        have hadds : Adds [] r released := releaseWhile_adds hreleased
        rcases hbehind with ⟨f, rest, called, -, -, hcalled, rfl⟩ | ⟨-, rfl⟩
        · have hcall : Adds [] { released with stack := rest } called := release_adds hcalled
          exact hadds.trans hcall
        · exact hadds

theorem run_adds {segments : List Segment} :
    ∀ {r : Reduction}, run grammar r segments = .ok r' →
      Adds (segments.filter (·.kind == .literal)) r r' := by
  induction segments with
  | nil =>
      intro r h
      cases h
      exact .refl rfl
  | cons x more ih =>
      intro r h
      rw [run] at h
      obtain ⟨middle, hstep, h⟩ := bind_eq_ok.1 h
      rw [← List.singleton_append, List.filter_append]
      exact (step_adds hstep).trans (ih h)

-- ============================================================= runs in parts

/-- Only a function looks at what follows it. -/
theorem step_next (hx : x.kind ≠ .function) (next' : Option SegmentKind) :
    step grammar r x next = step grammar r x next' := by
  unfold step
  cases hkind : x.kind with
  | function => exact absurd hkind hx
  | literal => rfl
  | operator => rfl
  | leftParen => rfl
  | comma => rfl
  | rightParen => rfl

/-- A run goes in parts, except between a function and its parenthesis. -/
theorem run_append {l : List Segment} (m : List Segment) (hl : lastKind l ≠ some .function) :
    ∀ r : Reduction, run grammar r (l ++ m) = run grammar r l >>= fun r' => run grammar r' m := by
  induction l with
  | nil =>
      intro r
      rfl
  | cons x l ih =>
      intro r
      -- A single segment sees what is behind it only if it is a function, and the last one is
      -- none.
      cases l with
      | nil =>
          have hx : x.kind ≠ .function := by simpa [lastKind] using hl
          rw [List.singleton_append, run, run, step_next hx (([] : List Segment).head?.map _),
            bind_assoc]
          rfl
      | cons y l =>
          have hrest : lastKind (y :: l) ≠ some .function := by
            simpa [lastKind] using hl
          rw [List.cons_append, run, run, bind_assoc]
          refine bind_congr fun r' => ?_
          exact ih hrest r'

-- ========================================================= on top of a base

/-- Operators above a base that stops them leave from the top. -/
theorem releaseWhile_upper {test : Segment → Except Fault Bool} {base upper : List Segment}
    (hbase : ∀ top ∈ base.head?, test top = .ok false) :
    ∀ {r : Reduction}, (∀ p ∈ upper, p.kind = .operator) →
      releaseWhile grammar test (upper ++ base) r = .ok r' →
      ∃ pending kept, upper = pending ++ kept
        ∧ r' = { r with
          stack := kept ++ base
          output := r.output ++ pending.map operatorInstruction } := by
  induction upper with
  | nil =>
      intro r _ h
      have hkept : releaseWhile grammar test ([] ++ base) r
          = .ok { r with stack := base, output := r.output ++ [].map operatorInstruction } :=
        releaseWhile_operators (by simp) hbase
      rw [hkept] at h
      exact ⟨[], [], rfl, (Except.ok.inj h).symm⟩
  | cons p upper ih =>
      intro r hupper h
      rw [List.cons_append, releaseWhile] at h
      obtain ⟨passes, -, h⟩ := bind_eq_ok.1 h
      cases passes with
      | false =>
          cases h
          exact ⟨[], p :: upper, rfl, by simp⟩
      | true =>
          obtain ⟨released, hreleased, h⟩ := bind_eq_ok.1 h
          rw [release_operator (hupper p List.mem_cons_self)] at hreleased
          cases hreleased
          obtain ⟨pending, kept, rfl, rfl⟩ :=
            ih (fun q hq => hupper q (List.mem_cons_of_mem p hq)) h
          exact ⟨p :: pending, kept, rfl, by simp⟩

/-- A call's counter, gone up; there is none for a group. -/
def counted (base : List Segment) (count : Nat) (counters : List Nat) : List Nat :=
  if callOpen base then counters.modifyHead (· + count) else counters

theorem counted_zero (base : List Segment) (counters : List Nat) :
    counted base 0 counters = counters := by
  unfold counted
  cases counters <;> simp

theorem counted_counted (base : List Segment) (count count' : Nat) (counters : List Nat) :
    counted base count' (counted base count counters) = counted base (count + count') counters := by
  unfold counted
  by_cases hopen : callOpen base = true
  · cases counters <;> simp [hopen, Nat.add_assoc]
  · simp [hopen]

/-- An operand is counted where no operator waits above the base. -/
theorem begun_eq_counted {base upper : List Segment} (hupper : ∀ p ∈ upper, p.kind = .operator)
    (counters : List Nat) :
    begun (upper ++ base) counters = counted base (if upper.isEmpty then 1 else 0) counters := by
  cases upper with
  | nil => rfl
  | cons p upper =>
      have hp : p.kind ≠ .leftParen := by simp [hupper p List.mem_cons_self]
      rw [List.cons_append, begun_of_not_callOpen (callOpen_of_ne_leftParen hp)]
      exact (counted_zero base counters).symm

/-- What taking in segments has done above a base of the stack. -/
structure Passed (base upper s : List Segment) (r r' : Reduction) (upper' : List Segment)
    (body : List Instruction) : Prop where
  stack : r'.stack = upper' ++ base
  waiting : ∀ p ∈ upper', p.kind = .operator
  output : r'.output = r.output ++ body
  carries : (body.map Instruction.segment ++ upper').Perm (upper ++ s.filter Segment.isCarried)
  counters : r'.counters = counted base (begins upper.isEmpty (level 0 s)) r.counters

namespace Passed

variable {base upper upper' upper'' s s' : List Segment} {r'' : Reduction}
  {body body' : List Instruction}

/-- First some segments, then others. -/
theorem append (h : Passed base upper s r r' upper' body)
    (h' : Passed base upper' s' r' r'' upper'' body')
    (hbegins : begins upper.isEmpty (level 0 (s ++ s'))
      = begins upper.isEmpty (level 0 s) + begins upper'.isEmpty (level 0 s')) :
    Passed base upper (s ++ s') r r'' upper'' (body ++ body') where
  stack := h'.stack
  waiting := h'.waiting
  output := by rw [h'.output, h.output, List.append_assoc]
  carries := by
    rw [List.map_append, List.append_assoc, List.filter_append, ← List.append_assoc upper]
    refine (h'.carries.append_left _).trans ?_
    rw [← List.append_assoc]
    exact h.carries.append_right _
  counters := by rw [h'.counters, h.counters, counted_counted, hbegins]

section

variable (hstack : r.stack = upper ++ base) (hupper : ∀ p ∈ upper, p.kind = .operator)

include hstack hupper

theorem nil : Passed base upper [] r r upper [] where
  stack := hstack
  waiting := hupper
  output := (List.append_nil _).symm
  carries := by simp
  counters := (counted_zero base r.counters).symm

/-- An operand is written, and it is counted if it is leading. -/
theorem operand {previous : Option SegmentKind}
    (hcarries : (body.map Instruction.segment).Perm (s.filter Segment.isCarried))
    (hbegins : ∀ fresh, begins fresh (level 0 s) = if fresh then 1 else 0) :
    Passed base upper s r ⟨r.output ++ body, r.stack, begun r.stack r.counters, previous⟩ upper
      body where
  stack := hstack
  waiting := hupper
  output := rfl
  carries := List.perm_append_comm.trans (hcarries.append_left upper)
  counters := by rw [hbegins, hstack, begun_eq_counted hupper]

end

section

variable {o : Segment} {below : List Segment} (ho : o.kind = .leftParen)
  (hstack : r.stack = upper ++ o :: below) (hupper : ∀ p ∈ upper, p.kind = .operator)

include ho hstack hupper

/-- An operator waits above the base in place of those it releases. -/
theorem operator (hx : x.kind = .operator) (h : step grammar r x next = .ok r') :
    ∃ kept body, Passed (o :: below) upper [x] r r' (x :: kept) body := by
  obtain ⟨test, released, hstop, hreleased, rfl⟩ := step_operator_ok hx h
  have hbase : ∀ top ∈ (o :: below).head?, test top = .ok false := by
    intro top htop
    obtain rfl : o = top := Option.some.inj htop
    exact hstop o (by simp [ho])
  rw [hstack] at hreleased
  obtain ⟨pending, kept, rfl, rfl⟩ := releaseWhile_upper hbase hupper hreleased
  have hpending : ∀ p ∈ pending, p.kind = .operator :=
    fun p hp => hupper p (List.mem_append_left kept hp)
  refine ⟨kept, pending.map operatorInstruction, rfl, ?_, rfl, ?_, ?_⟩
  · intro p hp
    rcases List.mem_cons.1 hp with rfl | hp
    · exact hx
    · exact hupper p (List.mem_append_right pending hp)
  · have hcarried : [x].filter Segment.isCarried = [x] := by simp [Segment.isCarried, hx]
    rw [map_segment_operators hpending, hcarried]
    exact List.perm_middle.trans (List.perm_append_singleton x (pending ++ kept)).symm
  · simp [level, begins, hx, counted_zero]

/-- A comma leaves nothing above the base. -/
theorem comma (hx : x.kind = .comma) (h : step grammar r x next = .ok r') :
    Passed (o :: below) upper [x] r r' [] (upper.map operatorInstruction) := by
  obtain ⟨released, hreleased, rfl⟩ := step_comma_ok hx h
  rw [releaseToParen_operators hstack ho hupper] at hreleased
  cases hreleased
  refine ⟨rfl, by simp, rfl, ?_, ?_⟩
  · rw [map_segment_operators hupper]
    simp [Segment.isCarried, hx]
  · simp [level, begins, hx, counted_zero]

end

end Passed

/-- Segments that are passed above whatever parenthesis is open. -/
def Passes (grammar : Grammar) (s : List Segment) : Prop :=
  ∀ {o : Segment} {below upper : List Segment} {r r' : Reduction}, o.kind = .leftParen →
    r.stack = upper ++ o :: below → (∀ p ∈ upper, p.kind = .operator) →
    run grammar r s = .ok r' → ∃ upper' body, Passed (o :: below) upper s r r' upper' body

section

variable {f o c : Segment} {inner s : List Segment} (hpasses : Passes grammar inner)
  (hinner : Matched inner) (ho : o.kind = .leftParen) (hc : c.kind = .rightParen)

include hpasses hinner ho hc

/-- A group leaves the stack as it was. -/
theorem run_group_ok (hr : ∀ top ∈ r.stack.head?, top.kind ≠ .function)
    (h : run grammar r (o :: (inner ++ c :: s)) = .ok r') :
    ∃ body, (body.map Instruction.segment).Perm (inner.filter Segment.isCarried)
      ∧ run grammar {
          output := r.output ++ body
          stack := r.stack
          counters := begun r.stack r.counters
          previous := some .rightParen } s = .ok r' := by
  rw [run] at h
  obtain ⟨opened, hopened, h⟩ := bind_eq_ok.1 h
  rw [run_append _ hinner.lastKind_ne] at h
  obtain ⟨passed, hpassed, h⟩ := bind_eq_ok.1 h
  rw [run] at h
  obtain ⟨closed, hclosed, h⟩ := bind_eq_ok.1 h
  rw [step_leftParen_ok ho hopened] at hpassed
  have hstack : o :: r.stack = [] ++ o :: r.stack := rfl
  obtain ⟨upper, body, hbody⟩ := hpasses ho hstack (by simp) hpassed
  have hcounters : passed.counters = begun r.stack r.counters := by
    rw [hbody.counters]
    simp [counted, callOpen_group hr]
  rw [step_rightParen_group_ok hc hbody.stack ho hr hbody.waiting hclosed] at h
  refine ⟨body ++ upper.map operatorInstruction, ?_, ?_⟩
  · rw [List.map_append, map_segment_operators hbody.waiting]
    exact hbody.carries
  · rw [hbody.output, hcounters] at h
    simpa only [List.append_assoc] using h

/-- A call leaves the stack as it was, with its own instruction behind those
of what it encloses. -/
theorem run_call_ok (hf : f.kind = .function)
    (h : run grammar r (f :: o :: (inner ++ c :: s)) = .ok r') :
    ∃ body, (body.map Instruction.segment).Perm (inner.filter Segment.isCarried)
      ∧ run grammar {
          output := r.output ++ body ++ [.call f.text f.position (leadingCount inner)]
          stack := r.stack
          counters := begun r.stack r.counters
          previous := some .rightParen } s = .ok r' := by
  rw [run] at h
  obtain ⟨named, hnamed, h⟩ := bind_eq_ok.1 h
  rw [run] at h
  obtain ⟨opened, hopened, h⟩ := bind_eq_ok.1 h
  rw [run_append _ hinner.lastKind_ne] at h
  obtain ⟨passed, hpassed, h⟩ := bind_eq_ok.1 h
  rw [run] at h
  obtain ⟨closed, hclosed, h⟩ := bind_eq_ok.1 h
  have hclosedStack : callOpen (f :: r.stack) = false := callOpen_of_ne_leftParen (by simp [hf])
  rw [step_leftParen_ok ho hopened, step_function_ok hf hnamed,
    begun_of_not_callOpen hclosedStack] at hpassed
  have hstack : o :: f :: r.stack = [] ++ o :: f :: r.stack := rfl
  obtain ⟨upper, body, hbody⟩ := hpasses ho hstack (by simp) hpassed
  have hcounters : passed.counters = leadingCount inner :: begun r.stack r.counters := by
    rw [hbody.counters, leadingCount_eq_begins]
    simp [counted, callOpen, ho, hf]
  rw [step_rightParen_call_ok hc hbody.stack ho hf hbody.waiting hcounters hclosed] at h
  refine ⟨body ++ upper.map operatorInstruction, ?_, ?_⟩
  · rw [List.map_append, map_segment_operators hbody.waiting]
    exact hbody.carries
  · rw [hbody.output] at h
    simpa only [List.append_assoc] using h

end

/-- Where operators wait above an open parenthesis, no function does. -/
theorem noFunction_upper {upper below : List Segment} {o : Segment} (ho : o.kind = .leftParen)
    (hupper : ∀ p ∈ upper, p.kind = .operator) :
    ∀ top ∈ (upper ++ o :: below).head?, top.kind ≠ .function := by
  intro top htop
  cases upper with
  | nil =>
      obtain rfl : o = top := Option.some.inj htop
      simp [ho]
  | cons p upper =>
      obtain rfl : p = top := Option.some.inj htop
      simp [hupper p List.mem_cons_self]

/-- Segments are passed behind an operand. -/
theorem Passes.operand {o : Segment} {s upper below block : List Segment} {body : List Instruction}
    {previous : Option SegmentKind} (hs : Passes grammar s) (ho : o.kind = .leftParen)
    (hstack : r.stack = upper ++ o :: below) (hupper : ∀ p ∈ upper, p.kind = .operator)
    (hcarries : (body.map Instruction.segment).Perm (block.filter Segment.isCarried))
    (hbegins : ∀ fresh s, begins fresh (level 0 (block ++ s))
      = (if fresh then 1 else 0) + begins fresh (level 0 s))
    (h : run grammar ⟨r.output ++ body, r.stack, begun r.stack r.counters, previous⟩ s = .ok r') :
    ∃ upper' body', Passed (o :: below) upper (block ++ s) r r' upper' body' := by
  have halone : ∀ fresh, begins fresh (level 0 block) = if fresh then 1 else 0 := by
    intro fresh
    have hnone := hbegins fresh []
    rwa [List.append_nil] at hnone
  have hfirst : Passed (o :: below) upper block r
      ⟨r.output ++ body, r.stack, begun r.stack r.counters, previous⟩ upper body :=
    .operand hstack hupper hcarries halone
  obtain ⟨upper', body', hrest⟩ := hs ho hfirst.stack hupper h
  exact ⟨upper', body ++ body', hfirst.append hrest (by rw [hbegins, halone])⟩

/-- Whatever is built up of segments, groups and calls is passed. -/
theorem passes_of_matched {s : List Segment} (h : Matched s) : Passes grammar s := by
  induction h with
  | nil =>
      intro o below upper r r' ho hstack hupper h
      cases h
      exact ⟨upper, [], .nil hstack hupper⟩
  | @plain x s hx hs ih =>
      intro o below upper r r' ho hstack hupper h
      rw [run] at h
      obtain ⟨middle, hstep, h⟩ := bind_eq_ok.1 h
      have hsplit : x :: s = [x] ++ s := rfl
      rw [hsplit]
      -- A literal is an operand; an operator and a comma change what waits above the parenthesis.
      rcases hx with hx | hx | hx
      · rw [step_literal_ok hx hstep] at h
        refine ih.operand ho hstack hupper ?_ (fun fresh s => ?_) h
        · simp [Instruction.segment_value hx, Segment.isCarried, hx]
        · simp [level, begins, hx]
      · obtain ⟨kept, released, hfirst⟩ := Passed.operator ho hstack hupper hx hstep
        obtain ⟨upper', body, hrest⟩ := ih ho hfirst.stack hfirst.waiting h
        refine ⟨upper', _, hfirst.append hrest ?_⟩
        simp [level, begins, hx]
      · have hfirst := Passed.comma ho hstack hupper hx hstep
        obtain ⟨upper', body, hrest⟩ := ih ho hfirst.stack hfirst.waiting h
        refine ⟨upper', _, hfirst.append hrest ?_⟩
        simp [level, begins, hx]
  | @group p c inner s hp hinner hc hs ihinner ih =>
      intro o below upper r r' ho hstack hupper h
      have hr : ∀ top ∈ r.stack.head?, top.kind ≠ .function := by
        rw [hstack]
        exact noFunction_upper ho hupper
      obtain ⟨body, hbody, h⟩ := run_group_ok ihinner hinner hp hc hr h
      have hsplit : p :: (inner ++ c :: s) = (p :: (inner ++ [c])) ++ s := by simp
      rw [hsplit]
      refine ih.operand ho hstack hupper ?_ (fun fresh s => ?_) h
      · simpa [Segment.isCarried, hp, hc] using hbody
      · rw [List.cons_append, List.append_assoc]
        exact hinner.begins_group hp hc fresh s
  | @call f p c inner s hf hp hinner hc hs ihinner ih =>
      intro o below upper r r' ho hstack hupper h
      obtain ⟨body, hbody, h⟩ := run_call_ok ihinner hinner hp hc hf h
      have hsplit : f :: p :: (inner ++ c :: s) = (f :: p :: (inner ++ [c])) ++ s := by simp
      rw [hsplit]
      rw [List.append_assoc] at h
      refine ih.operand ho hstack hupper ?_ (fun fresh s => ?_) h
      · rw [List.map_append, List.map_singleton, Instruction.segment_call hf]
        refine (List.perm_append_singleton f _).trans ?_
        simpa [Segment.isCarried, hf, hp, hc] using hbody.cons f
      · rw [List.cons_append, List.cons_append, List.append_assoc]
        exact hinner.begins_call hf hp hc fresh s

end Reduction

section

variable {grammar : Grammar} {segments : List Segment} {instructions : List Instruction}
  (h : Instruction.ofSegments? grammar segments = .ok instructions)

include h

/-- What is reduced is reducible, and each of its segments that becomes an
instruction becomes one. -/
theorem ofSegments_carries :
    Reducible grammar.operators segments
      ∧ (instructions.map Instruction.segment).Perm (segments.filter Segment.isCarried) := by
  have hends := Reduction.reduced grammar segments
  rw [h] at hends
  cases hends with
  | taken _ hplaced hnests hcarries =>
      exact ⟨Reduction.placed_nests_iff.1 ⟨hplaced, hnests⟩, hcarries⟩

/-- The values are those of the literals, in their order. -/
theorem ofSegments_values :
    (instructions.map Instruction.segment).filter (·.kind == .literal)
      = segments.filter (·.kind == .literal) := by
  obtain ⟨r, hrun, h⟩ := bind_eq_ok.1 h
  obtain ⟨r', hfinish, h⟩ := bind_eq_ok.1 h
  cases h
  have hadds : Reduction.Adds (segments.filter (·.kind == .literal) ++ []) {} r' :=
    (Reduction.run_adds hrun).trans (Reduction.releaseWhile_adds hfinish)
  obtain ⟨more, houtput, hmore⟩ := hadds
  rw [List.append_nil] at hmore
  rw [houtput, List.nil_append, hmore]

/-- A call comes behind what it encloses, and only what was written in front
of it comes before that. -/
theorem ofSegments_call {before inner : List Segment} {f : Segment}
    (hcall : CallIn segments before f inner) :
    ∃ early body late waiting,
      instructions
          = early ++ (body ++ .call f.text f.position (leadingCount inner) :: late)
        ∧ (early.map Instruction.segment ++ waiting).Perm (before.filter Segment.isCarried)
        ∧ (body.map Instruction.segment).Perm (inner.filter Segment.isCarried) := by
  have hcalled : Called segments := (ofSegments_carries h).1.called
  have hinner := hcall.matched hcalled
  cases hcall with
  | @intro _ _ after _ o c hf ho _ hc =>
      have hbefore : lastKind before ≠ some .function :=
        hcalled.lastKind_ne (f :: o :: (inner ++ c :: after)) (by simp [hf])
      obtain ⟨r, hrun, h⟩ := bind_eq_ok.1 h
      obtain ⟨r', hfinish, h⟩ := bind_eq_ok.1 h
      cases h
      rw [Reduction.run_append _ hbefore] at hrun
      obtain ⟨reached, hreached, hrun⟩ := bind_eq_ok.1 hrun
      -- In front of the call: what has been carried so far is written or waits.
      have hran : Reduction.Ran grammar [] {} before (Reduction.run grammar {} before) :=
        Reduction.Sound.start.run (by simp)
      rw [hreached] at hran
      cases hran with
      | taken _ _ _ _ hcarries =>
          obtain ⟨body, hbody, hrun⟩ :=
            Reduction.run_call_ok (Reduction.passes_of_matched hinner) hinner ho hc hf hrun
          obtain ⟨late, hlate, -⟩ :=
            (Reduction.run_adds hrun).trans (Reduction.releaseWhile_adds hfinish)
          refine ⟨reached.output, body, late, reached.stack.filter Segment.isCarried, ?_, ?_, hbody⟩
          · rw [hlate]
            simp only [List.append_assoc, List.singleton_append]
          · simpa [Reduction.carried] using hcarries

end

end UnitCalc
