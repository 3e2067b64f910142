/-
What a step has done if it went, for each kind of segment and whatever the
stack was.

Where `Proofs/Reduction/Steps` needs to know the stack to tell that a step
goes, nothing is asked here but that it went, so this is what proofs go by
that follow a successful reduction and care for only a part of it: what is on
the stack, what has been written, or what is counted.

A comma and a closing parenthesis are described completely (`comma_eq_ok`,
`rightParen_eq_ok`), since a proof may want to show that they go as well as
that they went. Of an operator it is enough for all proofs that it releases by
some test that nothing but operators passes (`step_operator_ok`).
-/
import UnitCalc.Proofs.Error.Answers
import UnitCalc.Proofs.Reduction.Steps

namespace UnitCalc.Reduction

variable {grammar : Grammar} {r r' : Reduction} {x : Segment} {next : Option SegmentKind}

/-- An argument that begins is counted, and nothing else happens. -/
theorem beginArgument_eq_ok (h : beginArgument grammar r x = .ok r') :
    r' = { r with counters := begun r.stack r.counters } := by
  unfold beginArgument at h
  unfold begun
  by_cases hopen : callOpen r.stack = true
  · rw [if_pos hopen] at h
    rw [if_pos hopen]
    cases hcounters : r.counters with
    | nil =>
        rw [hcounters] at h
        cases h
    | cons count counters =>
        rw [hcounters] at h
        exact (Except.ok.inj h).symm
  · rw [if_neg hopen] at h
    rw [if_neg hopen]
    exact (Except.ok.inj h).symm

/-- What leaves the stack is written; a function needs a counter that is
within the limit. -/
theorem release_eq_ok (h : release grammar r x = .ok r') :
    (x.kind = .function ∧ ∃ count counters, r.counters = count :: counters
        ∧ r' = { r with
          counters := counters
          output := r.output ++ [.call x.text x.position count] })
      ∨ x.kind ≠ .function ∧ r' = { r with output := r.output ++ [operatorInstruction x] } := by
  unfold release at h
  by_cases hx : x.kind = .function
  · rw [if_pos hx] at h
    cases hcounters : r.counters with
    | nil =>
        rw [hcounters] at h
        cases h
    | cons count counters =>
        rw [hcounters] at h
        obtain ⟨_, -, h⟩ := bind_eq_ok.1 h
        exact Or.inl ⟨hx, count, counters, rfl, (Except.ok.inj h).symm⟩
  · rw [if_neg hx] at h
    exact Or.inr ⟨hx, (Except.ok.inj h).symm⟩

theorem step_literal_ok (hx : x.kind = .literal) (h : step grammar r x next = .ok r') :
    r' = {
      output := r.output ++ [.value x.text x.position]
      stack := r.stack
      counters := begun r.stack r.counters
      previous := some .literal } := by
  simp only [step, hx, literal, bind_eq_ok, pure_eq_ok] at h
  obtain ⟨_, ⟨begun, hbegun, rfl⟩, rfl⟩ := h
  rw [beginArgument_eq_ok hbegun]

theorem step_leftParen_ok (hx : x.kind = .leftParen) (h : step grammar r x next = .ok r') :
    r' = {
      output := r.output
      stack := x :: r.stack
      counters := begun r.stack r.counters
      previous := some .leftParen } := by
  simp only [step, hx, leftParen, bind_eq_ok, pure_eq_ok] at h
  obtain ⟨_, ⟨begun, hbegun, rfl⟩, rfl⟩ := h
  rw [beginArgument_eq_ok hbegun]

theorem step_function_ok (hx : x.kind = .function) (h : step grammar r x next = .ok r') :
    r' = {
      output := r.output
      stack := x :: r.stack
      counters := 0 :: begun r.stack r.counters
      previous := some .function } := by
  by_cases hnext : next = some .leftParen
  · simp only [step, hx, function, hnext, bne_self_eq_false, Bool.false_eq_true, ↓reduceIte,
      bind_eq_ok, pure_eq_ok] at h
    obtain ⟨_, ⟨begun, hbegun, rfl⟩, rfl⟩ := h
    rw [beginArgument_eq_ok hbegun]
  · rw [step_function_unopened hx hnext] at h
    cases h

/-- An operator releases what a test says, which nothing but operators
passes. -/
theorem step_operator_ok (hx : x.kind = .operator) (h : step grammar r x next = .ok r') :
    ∃ test released, (∀ top, top.kind ≠ .operator → test top = .ok false)
      ∧ releaseWhile grammar test r.stack r = .ok released
      ∧ r' = { released with stack := x :: released.stack, previous := some .operator } := by
  cases hknown : grammar.operators.get? x.text with
  | none =>
      rw [step_operator_unknown hx hknown] at h
      cases h
  | some operator =>
      simp only [step, hx, Reduction.operator, hknown, bind_eq_ok, pure_eq_ok] at h
      obtain ⟨_, ⟨released, hreleased, rfl⟩, rfl⟩ := h
      refine ⟨_, released, fun top htop => ?_, hreleased, rfl⟩
      simp [htop, pure, Except.pure]

/-- A comma needs a call that is open, and an argument in front of it. -/
theorem comma_eq_ok : comma grammar r x = .ok r' ↔
    releaseToParen grammar r = .ok r' ∧ callOpen r'.stack = true
      ∧ ¬ (r'.previous = some .leftParen ∨ r'.previous = some .comma) := by
  unfold comma
  rw [bind_eq_ok]
  constructor
  · rintro ⟨released, hreleased, h⟩
    cases hopen : callOpen released.stack with
    | false => simp [hopen, throw, throwThe, MonadExceptOf.throw, bind, Except.bind] at h
    | true =>
        by_cases hprevious : released.previous = some .leftParen ∨ released.previous = some .comma
        · simp [hopen, hprevious, throw, throwThe, MonadExceptOf.throw, bind, Except.bind] at h
        · simp only [hopen, hprevious, Bool.not_true, Bool.false_eq_true, ↓reduceIte] at h
          obtain rfl := Except.ok.inj h
          exact ⟨hreleased, hopen, hprevious⟩
  · rintro ⟨hreleased, hopen, hprevious⟩
    refine ⟨r', hreleased, ?_⟩
    simp only [hopen, hprevious, Bool.not_true, Bool.false_eq_true, ↓reduceIte]
    rfl

theorem step_comma_ok (hx : x.kind = .comma) (h : step grammar r x next = .ok r') :
    ∃ released, releaseToParen grammar r = .ok released
      ∧ r' = { released with previous := some .comma } := by
  simp only [step, hx] at h
  obtain ⟨released, hcomma, h⟩ := bind_eq_ok.1 h
  exact ⟨released, (comma_eq_ok.1 hcomma).1, (Except.ok.inj h).symm⟩

/-- A closing parenthesis takes away the one on top, unless an argument should
stand in front of it, and a function below it is released. -/
theorem rightParen_eq_ok : rightParen grammar r x = .ok r' ↔
    ∃ released o below, releaseToParen grammar r = .ok released ∧ released.stack = o :: below
      ∧ released.previous ≠ some .comma
      ∧ ((∃ f rest, below = f :: rest ∧ f.kind = .function
          ∧ release grammar { released with stack := rest } f = .ok r')
        ∨ (∀ top ∈ below.head?, top.kind ≠ .function) ∧ r' = { released with stack := below }) := by
  unfold rightParen
  rw [bind_eq_ok]
  constructor
  · rintro ⟨released, hreleased, h⟩
    cases hstack : released.stack with
    | nil =>
        rw [hstack] at h
        cases h
    | cons o below =>
        simp only [hstack] at h
        by_cases hprevious : released.previous = some .comma
        · rw [if_pos hprevious] at h
          cases h
        · rw [if_neg hprevious] at h
          refine ⟨released, o, below, hreleased, hstack, hprevious, ?_⟩
          cases below with
          | nil =>
              cases h
              exact Or.inr ⟨by simp, rfl⟩
          | cons top rest =>
              by_cases htop : top.kind = .function
              · simp only [htop, ↓reduceIte] at h
                exact Or.inl ⟨top, rest, rfl, htop, h⟩
              · simp only [htop, ↓reduceIte] at h
                cases h
                exact Or.inr ⟨by simpa using htop, rfl⟩
  · rintro ⟨released, o, below, hreleased, hstack, hprevious, hbelow⟩
    refine ⟨released, hreleased, ?_⟩
    simp only [hstack]
    rw [if_neg hprevious]
    rcases hbelow with ⟨f, rest, rfl, hf, hcalled⟩ | ⟨hno, rfl⟩
    · simp only [hf, ↓reduceIte]
      exact hcalled
    · cases below with
      | nil => rfl
      | cons top rest =>
          simp only [hno top rfl, ↓reduceIte]
          rfl

theorem step_rightParen_ok (hx : x.kind = .rightParen) (h : step grammar r x next = .ok r') :
    ∃ released o below, releaseToParen grammar r = .ok released ∧ released.stack = o :: below
      ∧ ((∃ f rest called, below = f :: rest ∧ f.kind = .function
          ∧ release grammar { released with stack := rest } f = .ok called
          ∧ r' = { called with previous := some .rightParen })
        ∨ (∀ top ∈ below.head?, top.kind ≠ .function)
          ∧ r' = { released with stack := below, previous := some .rightParen }) := by
  simp only [step, hx] at h
  obtain ⟨taken, htaken, h⟩ := bind_eq_ok.1 h
  obtain rfl := Except.ok.inj h
  obtain ⟨released, o, below, hreleased, hstack, -, hbelow⟩ := rightParen_eq_ok.1 htaken
  refine ⟨released, o, below, hreleased, hstack, ?_⟩
  rcases hbelow with ⟨f, rest, hcons, hf, hcalled⟩ | ⟨hno, rfl⟩
  · exact Or.inl ⟨f, rest, taken, hcons, hf, hcalled, rfl⟩
  · exact Or.inr ⟨hno, rfl⟩

/-- The end of a call, whose operators are known. -/
theorem step_rightParen_call_ok {pending below : List Segment} {o f : Segment} {count : Nat}
    {outer : List Nat} (hx : x.kind = .rightParen) (hstack : r.stack = pending ++ o :: f :: below)
    (ho : o.kind = .leftParen) (hf : f.kind = .function) (hpending : ∀ p ∈ pending,
      p.kind = .operator) (hcounters : r.counters = count :: outer)
    (h : step grammar r x next = .ok r') :
    r' = {
      output := r.output ++ pending.map operatorInstruction ++ [.call f.text f.position count]
      stack := below
      counters := outer
      previous := some .rightParen } := by
  obtain ⟨released, o', below', hreleased, hbelow, hbehind⟩ := step_rightParen_ok hx h
  rw [releaseToParen_operators hstack ho hpending] at hreleased
  cases hreleased
  obtain ⟨rfl, rfl⟩ := List.cons.inj hbelow
  -- The parenthesis has a function below it, so the counter that was taken is its own.
  rcases hbehind with ⟨f', rest, called, hcons, -, hcalled, rfl⟩ | ⟨hno, -⟩
  · obtain ⟨rfl, rfl⟩ := List.cons.inj hcons
    rcases release_eq_ok hcalled with ⟨-, count', outer', hcons, rfl⟩ | ⟨hno, -⟩
    · simp only [hcounters, List.cons.injEq] at hcons
      obtain ⟨rfl, rfl⟩ := hcons
      rfl
    · exact absurd hf hno
  · exact absurd hf (hno f rfl)

/-- The end of a group, whose operators are known. -/
theorem step_rightParen_group_ok {pending below : List Segment} {o : Segment}
    (hx : x.kind = .rightParen) (hstack : r.stack = pending ++ o :: below)
    (ho : o.kind = .leftParen) (hbelow : ∀ top ∈ below.head?, top.kind ≠ .function)
    (hpending : ∀ p ∈ pending, p.kind = .operator) (h : step grammar r x next = .ok r') :
    r' = {
      output := r.output ++ pending.map operatorInstruction
      stack := below
      counters := r.counters
      previous := some .rightParen } := by
  obtain ⟨released, o', below', hreleased, hcons, hbehind⟩ := step_rightParen_ok hx h
  rw [releaseToParen_operators hstack ho hpending] at hreleased
  cases hreleased
  obtain ⟨rfl, rfl⟩ := List.cons.inj hcons
  rcases hbehind with ⟨f, rest, called, rfl, hf, -, -⟩ | ⟨-, rfl⟩
  · exact absurd hf (hbelow f rfl)
  · rfl

end UnitCalc.Reduction
