/-
The limit on arguments decides whether a reduction succeeds and nothing else
about it.

What is written to the output says which limits admit it: those that no call
among it exceeds (`Reduction.Filters`). The judgement is about a part of a
reduction under any limits and composes (`Filters.bind`), so that of the
functions of the reduction only the one that writes calls is looked at closely
(`release_filters`); the others put together what they use.

The judgement has to be about what the part itself writes, not about the whole
output: a call that was written before has been checked under the limits of
before. With the run and the end put together nothing has been written before,
and it is about all instructions (`ofSegments_limits`).

`Proofs/Parsing/Limits` joins this with the limits on trees.
-/
import UnitCalc.Proofs.Error.Answers
import UnitCalc.Proofs.Expr.Listing

namespace UnitCalc

namespace CountsWithin

variable {limit : Int} {l r : List Instruction}

theorem nil : CountsWithin limit [] := by
  intro name position count hmem
  cases hmem

theorem append_iff : CountsWithin limit (l ++ r) ↔ CountsWithin limit l ∧ CountsWithin limit r := by
  unfold CountsWithin
  simp only [List.mem_append]
  constructor
  · intro h
    exact ⟨fun n p c hmem => h n p c (Or.inl hmem), fun n p c hmem => h n p c (Or.inr hmem)⟩
  · rintro ⟨hl, hr⟩ n p c (hmem | hmem)
    · exact hl n p c hmem
    · exact hr n p c hmem

theorem value {text : String} {position : Nat} : CountsWithin limit [.value text position] := by
  simp [CountsWithin]

theorem operator {symbol : String} {position : Nat} :
    CountsWithin limit [.operator symbol position] := by
  simp [CountsWithin]

theorem call_iff {name : String} {position count : Nat} :
    CountsWithin limit [.call name position count] ↔ (count : Int) ≤ limit := by
  constructor
  · intro h
    exact h name position count List.mem_cons_self
  · intro hle n p c hmem
    obtain ⟨-, -, rfl⟩ := Instruction.call.inj (List.mem_singleton.1 hmem)
    exact hle

end CountsWithin

/-- A check passes exactly what does not exceed its limit. -/
theorem Limits.check_eq_ok {name : String} {limit actual : Int} {done : Unit} :
    Limits.check name limit actual = .ok done ↔ actual ≤ limit := by
  unfold Limits.check
  split
  · next hexceeds => simp only [reduceCtorEq, false_iff, Int.not_le, hexceeds]
  · next hwithin => simpa using hwithin

namespace Reduction

/-- A part of a reduction that writes the same under all limits that admit
what it writes, and fails under the others. -/
def Filters (act : Limits → Except Fault Reduction) (r : Reduction) : Prop :=
  ∀ limits r', act limits = .ok r' →
    ∃ written, r'.output = r.output ++ written ∧ CountsWithin limits.arguments written
      ∧ ∀ limits' : Limits, CountsWithin limits'.arguments written → act limits' = .ok r'

namespace Filters

variable {act : Limits → Except Fault Reduction} {r r' : Reduction}

theorem fail {faults : Limits → Fault} : Filters (fun limits => .error (faults limits)) r := by
  intro limits r' hanswer
  cases hanswer

/-- What writes nothing. -/
theorem keep (h : r'.output = r.output) : Filters (fun _ => .ok r') r := by
  intro limits r'' hanswer
  cases hanswer
  exact ⟨[], by rw [h, List.append_nil], .nil, fun _ _ => rfl⟩

/-- What writes one instruction that is no call. -/
theorem write {i : Instruction} (h : r'.output = r.output ++ [i])
    (hi : ∀ limit, CountsWithin limit [i]) : Filters (fun _ => .ok r') r := by
  intro limits r'' hanswer
  cases hanswer
  exact ⟨[i], h, hi _, fun _ _ => rfl⟩

theorem bind {f : Limits → Reduction → Except Fault Reduction} (h : Filters act r)
    (hf : ∀ r', Filters (fun limits => f limits r') r') :
    Filters (fun limits => act limits >>= f limits) r := by
  intro limits r'' hanswer
  obtain ⟨r', hact, hnext⟩ := bind_eq_ok.1 hanswer
  obtain ⟨first, hfirst, hwithin, hsame⟩ := h limits r' hact
  obtain ⟨second, hsecond, hwithin', hsame'⟩ := hf r' limits r'' hnext
  refine ⟨first ++ second, ?_, CountsWithin.append_iff.2 ⟨hwithin, hwithin'⟩, ?_⟩
  · rw [hsecond, hfirst, List.append_assoc]
  · intro limits' hall
    obtain ⟨hallFirst, hallSecond⟩ := CountsWithin.append_iff.1 hall
    exact bind_eq_ok.2 ⟨r', hsame limits' hallFirst, hsame' limits' hallSecond⟩

/-- What has been written counts, and not what else has changed. -/
theorem of_output (h : Filters act r) (houtput : r.output = r'.output) : Filters act r' := by
  unfold Filters at h ⊢
  rwa [houtput] at h

end Filters

variable (grammar : Grammar) (r : Reduction) (x : Segment)

-- =============================================================== the stack

theorem release_filters : Filters (fun limits => release { grammar with limits } r x) r := by
  unfold release
  by_cases hx : x.kind = .function
  · simp only [hx, ↓reduceIte]
    cases r.counters with
    | nil => exact .fail
    | cons count counters =>
        intro limits r' hanswer
        obtain ⟨done, hcheck, hanswer⟩ := bind_eq_ok.1 hanswer
        cases hanswer
        -- The check passes exactly for the limits that admit the call that is written.
        refine ⟨[_], rfl, CountsWithin.call_iff.2 (Limits.check_eq_ok.1 hcheck), ?_⟩
        intro limits' hwithin
        exact bind_eq_ok.2 ⟨(), Limits.check_eq_ok.2 (CountsWithin.call_iff.1 hwithin), rfl⟩
  · simp only [hx, ↓reduceIte]
    exact .write rfl fun _ => .operator

/-- Nothing but releasing looks at the limits. -/
theorem releaseWhile_filters {test : Limits → Segment → Except Fault Bool}
    (htest : ∀ limits, test limits = test .standard) (stack : List Segment) :
    Filters (fun limits => releaseWhile { grammar with limits } (test limits) stack r) r := by
  simp only [htest]
  induction stack generalizing r with
  | nil => exact .keep rfl
  | cons top below ih =>
      simp only [releaseWhile]
      cases test .standard top with
      | error fault => exact .fail
      | ok passes =>
          cases passes with
          | false => exact .keep rfl
          | true =>
              have hreleased := (release_filters grammar { r with stack := below } top).bind
                (f := fun limits r =>
                  releaseWhile { grammar with limits } (test .standard) below r) ih
              exact hreleased

theorem releaseToParen_filters :
    Filters (fun limits => releaseToParen { grammar with limits } r) r :=
  releaseWhile_filters grammar r (fun _ => rfl) r.stack

/-- Counting an argument writes nothing. -/
theorem beginArgument_filters :
    Filters (fun limits => beginArgument { grammar with limits } r x) r := by
  unfold beginArgument
  split
  · split
    · exact .fail
    · exact .keep rfl
  · exact .keep rfl

-- ============================================================ the segments

theorem literal_filters : Filters (fun limits => literal { grammar with limits } r x) r :=
  (beginArgument_filters grammar r x).bind fun _ => .write rfl fun _ => .value

theorem function_filters (next : Option SegmentKind) :
    Filters (fun limits => function { grammar with limits } r x next) r := by
  unfold function
  by_cases hnext : next = some .leftParen
  · simp only [hnext, bne_self_eq_false, Bool.false_eq_true, ↓reduceIte]
    exact (beginArgument_filters grammar r x).bind fun _ => .keep rfl
  · have hbne : (next != some .leftParen) = true := by simpa using hnext
    simp only [hbne, ↓reduceIte]
    exact .fail

theorem operator_filters : Filters (fun limits => operator { grammar with limits } r x) r := by
  unfold operator
  dsimp only
  cases grammar.operators.get? x.text with
  | none => exact .fail
  | some operator =>
      exact (releaseWhile_filters grammar r (fun _ => rfl) r.stack).bind fun _ => .keep rfl

theorem leftParen_filters : Filters (fun limits => leftParen { grammar with limits } r x) r :=
  (beginArgument_filters grammar r x).bind fun _ => .keep rfl

theorem comma_filters : Filters (fun limits => comma { grammar with limits } r x) r := by
  unfold comma
  refine (releaseToParen_filters grammar r).bind fun r => ?_
  by_cases hopen : (!callOpen r.stack) = true
  · simp only [hopen, ↓reduceIte]
    exact .fail
  · by_cases hprevious : r.previous = some .leftParen ∨ r.previous = some .comma
    · simp only [hopen, hprevious, ↓reduceIte]
      exact .fail
    · simp only [hopen, hprevious, ↓reduceIte]
      exact .keep rfl

theorem rightParen_filters : Filters (fun limits => rightParen { grammar with limits } r x) r := by
  unfold rightParen
  refine (releaseToParen_filters grammar r).bind fun r => ?_
  cases r.stack with
  | nil => exact .fail
  | cons o below =>
      by_cases hprevious : r.previous = some .comma
      · simp only [hprevious, ↓reduceIte]
        exact .fail
      · simp only [hprevious, ↓reduceIte]
        cases below with
        | nil => exact .keep rfl
        | cons top rest =>
            by_cases htop : top.kind = .function
            · simp only [htop, ↓reduceIte]
              exact (release_filters grammar { r with stack := rest } top).of_output rfl
            · simp only [htop, ↓reduceIte]
              exact .keep rfl

theorem step_filters (next : Option SegmentKind) :
    Filters (fun limits => step { grammar with limits } r x next) r := by
  unfold step
  cases x.kind with
  | literal => exact (literal_filters grammar r x).bind fun _ => .keep rfl
  | function => exact (function_filters grammar r x next).bind fun _ => .keep rfl
  | operator => exact (operator_filters grammar r x).bind fun _ => .keep rfl
  | leftParen => exact (leftParen_filters grammar r x).bind fun _ => .keep rfl
  | comma => exact (comma_filters grammar r x).bind fun _ => .keep rfl
  | rightParen => exact (rightParen_filters grammar r x).bind fun _ => .keep rfl

-- ============================================================== whole runs

theorem run_filters (segments : List Segment) :
    Filters (fun limits => run { grammar with limits } r segments) r := by
  induction segments generalizing r with
  | nil => exact .keep rfl
  | cons x more ih => exact (step_filters grammar r x _).bind ih

theorem finish_filters : Filters (fun limits => finish { grammar with limits } r) r :=
  releaseWhile_filters grammar r (fun _ => rfl) r.stack

/-- A whole reduction: the run and what is released behind it. -/
theorem whole_filters (segments : List Segment) :
    Filters (fun limits => run { grammar with limits } {} segments >>=
      finish { grammar with limits }) {} :=
  (run_filters grammar {} segments).bind fun r => finish_filters grammar r

theorem ofSegments_eq_ok {grammar : Grammar} {segments : List Segment}
    {instructions : List Instruction} :
    Instruction.ofSegments? grammar segments = .ok instructions
      ↔ ∃ r, (run grammar {} segments >>= finish grammar) = .ok r ∧ r.output = instructions := by
  unfold Instruction.ofSegments?
  simp only [bind_eq_ok, pure_eq_ok]
  constructor
  · rintro ⟨r, hrun, r', hfinish, houtput⟩
    exact ⟨r', ⟨r, hrun, hfinish⟩, houtput⟩
  · rintro ⟨r', ⟨r, hrun, hfinish⟩, houtput⟩
    exact ⟨r, hrun, r', hfinish, houtput⟩

/-- Under certain limits a list has exactly the postfix order that it has
under any, provided that the calls in it are within the limit on
arguments. -/
theorem ofSegments_limits (grammar : Grammar) {segments : List Segment}
    {instructions : List Instruction} (limits : Limits) :
    Instruction.ofSegments? { grammar with limits } segments = .ok instructions
      ↔ (∃ limits', Instruction.ofSegments? { grammar with limits := limits' } segments
          = .ok instructions)
        ∧ CountsWithin limits.arguments instructions := by
  simp only [ofSegments_eq_ok]
  constructor
  · rintro ⟨r, hreduced, rfl⟩
    obtain ⟨written, houtput, hwithin, -⟩ := whole_filters grammar segments limits r hreduced
    rw [List.nil_append] at houtput
    exact ⟨⟨limits, r, hreduced, rfl⟩, houtput ▸ hwithin⟩
  · rintro ⟨⟨limits', r, hreduced, rfl⟩, hwithin⟩
    obtain ⟨written, houtput, -, hsame⟩ := whole_filters grammar segments limits' r hreduced
    rw [List.nil_append] at houtput
    exact ⟨r, hsame limits (houtput ▸ hwithin), rfl⟩

end Reduction

end UnitCalc
