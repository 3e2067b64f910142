/-
The stack and the counters at every place of a list, also where the reduction
is refused further on.

How a stack is built up is said by `Nested`; here it is read off what stands on
it side by side, since that is what a step looks at: how many functions there
are, what is on top of each, and which operators are next to each other
(`Stacked`). Each of these follows from `Nested` by induction on how the stack
is built, as a chain of neighbours.

# Places

Whether a function is let in hangs on the segment behind it, so a place in a
list is taken together with what follows (`runBefore`). A run up to a place,
and on from there, is a run of the whole list (`run_append_runBefore`).

# The invariant

What goes from one place to the next is the soundness of the state, with the
function that may be on top and its parenthesis ahead (`Amid`). The induction
is on the front of the list by its last segment (`amid_of_runBefore`), because
what lies behind the others then begins with that one.
-/
import Mathlib.Data.List.Chain
import Mathlib.Data.List.Induction
import UnitCalc.Proofs.Grammar.Matching
import UnitCalc.Proofs.Reduction.Inversion
import UnitCalc.Proofs.Reduction.Invariant

namespace UnitCalc.Reduction

variable {grammar : Grammar} {opened : List Bool} {r r' : Reduction} {x : Segment}
  {before after segments stack : List Segment}

-- ==================================================== the front of a list

/-- Takes in some segments which others follow. -/
def runBefore (grammar : Grammar) (after : List Segment) :
    Reduction → List Segment → Except Fault Reduction
  | r, [] => .ok r
  | r, x :: more => do
    let r ← step grammar r x ((more ++ after).head?.map Segment.kind)
    runBefore grammar after r more

/-- A run takes in the front of a list and then the rest. -/
theorem run_append_runBefore (after : List Segment) :
    ∀ r : Reduction, run grammar r (before ++ after)
      = runBefore grammar after r before >>= fun r' => run grammar r' after := by
  induction before with
  | nil =>
      intro r
      rfl
  | cons x more ih =>
      intro r
      rw [List.cons_append, run, runBefore, bind_assoc]
      exact bind_congr ih

/-- The last segment of a front sees what is behind it. -/
theorem runBefore_concat (s : List Segment) (x : Segment) :
    ∀ r : Reduction, runBefore grammar after r (s ++ [x])
      = runBefore grammar (x :: after) r s
        >>= fun r' => step grammar r' x (after.head?.map Segment.kind) := by
  induction s with
  | nil =>
      intro r
      rw [List.nil_append, runBefore]
      exact bind_pure _
  | cons y more ih =>
      intro r
      rw [List.cons_append, runBefore, runBefore, List.append_assoc, List.singleton_append,
        bind_assoc]
      exact bind_congr ih

-- ======================================================== side by side

/-- Only the open parenthesis of a call is on top of a function. -/
def Covers (above x : Segment) : Prop :=
  x.kind = .function → above.kind = .leftParen

/-- An operator on top of another one has left it waiting. -/
def KeepsWaiting (operators : Registry OperatorSymbol) (above below : Segment) : Prop :=
  above.kind = .operator → below.kind = .operator →
    ∃ operator waiting, operators.get? above.text = some operator
      ∧ operators.get? below.text = some waiting
      ∧ operator.yieldsTo waiting = false

namespace Nested

theorem countP_function (h : Nested grammar opened stack) :
    stack.countP (·.kind == .function) = opened.count true := by
  induction h with
  | empty => rfl
  | operator _ hx _ _ ih =>
      rw [List.countP_cons_of_neg (by simp [hx]), ih]
  | group _ ho ih =>
      rw [List.countP_cons_of_neg (by simp [ho]), ih]
      simp
  | call _ ho hf ih =>
      rw [List.countP_cons_of_neg (by simp [ho]), List.countP_cons_of_pos (by simp [hf]), ih,
        List.count_cons_self]

/-- No function is covered by what comes on top of a nested stack. -/
theorem covers_cons (h : Nested grammar opened stack) (hstack : stack.IsChain Covers)
    (x : Segment) : (x :: stack).IsChain Covers :=
  List.isChain_cons.2 ⟨fun top htop hf => absurd hf (h.noFunction top htop), hstack⟩

theorem covers (h : Nested grammar opened stack) : stack.IsChain Covers := by
  induction h with
  | empty => exact .nil
  | operator hbelow _ _ _ ih => exact hbelow.covers_cons ih _
  | group hbelow _ ih => exact hbelow.covers_cons ih _
  | call hbelow ho _ ih => exact List.isChain_cons_cons.2 ⟨fun _ => ho, hbelow.covers_cons ih _⟩

end Nested

/-- What is no operator keeps none waiting. -/
theorem keepsWaiting_cons {operators : Registry OperatorSymbol} (hx : x.kind ≠ .operator)
    (hstack : stack.IsChain (KeepsWaiting operators)) :
    (x :: stack).IsChain (KeepsWaiting operators) :=
  List.isChain_cons.2 ⟨fun _ _ hoperator => absurd hoperator hx, hstack⟩

theorem Nested.keepsWaiting (h : Nested grammar opened stack) :
    stack.IsChain (KeepsWaiting grammar.operators) := by
  induction h with
  | empty => exact .nil
  | @operator _ _ _ operator _ _ hknown hkept ih =>
      refine List.isChain_cons.2 ⟨fun top htop _ hoperator => ?_, ih⟩
      obtain ⟨waiting, hwaiting, hyields⟩ := hkept top htop hoperator
      exact ⟨operator, waiting, hknown, hwaiting, hyields⟩
  | group _ ho ih => exact keepsWaiting_cons (by simp [ho]) ih
  | call _ ho hf ih => exact keepsWaiting_cons (by simp [ho]) (keepsWaiting_cons (by simp [hf]) ih)

namespace Sound

variable (h : Sound grammar opened r)
include h

/-- There is a counter for every function on the stack, also for one that waits
for its parenthesis. -/
theorem length_counters : r.counters.length = r.stack.countP (·.kind == .function) := by
  cases h with
  | between hstack hcounted _ _ => rw [hcounted, hstack.countP_function]
  | named hstack htop hf hcounted _ =>
      rw [hcounted, htop, List.countP_cons_of_pos (by simp [hf]), hstack.countP_function]

theorem covers : r.stack.IsChain Covers := by
  cases h with
  | between hstack _ _ _ => exact hstack.covers
  | named hstack htop _ _ _ =>
      rw [htop]
      exact hstack.covers_cons hstack.covers _

theorem keepsWaiting : r.stack.IsChain (KeepsWaiting grammar.operators) := by
  cases h with
  | between hstack _ _ _ => exact hstack.keepsWaiting
  | named hstack htop hf _ _ =>
      rw [htop]
      exact keepsWaiting_cons (by simp [hf]) hstack.keepsWaiting

/-- A function on top is the segment before. -/
theorem previous_of_top : ∀ top ∈ r.stack.head?, top.kind = .function →
    r.previous = some .function := by
  intro top htop hf
  cases h with
  | between hstack _ _ _ => exact absurd hf (hstack.noFunction top htop)
  | named _ _ _ _ hbehind => exact hbehind

end Sound

-- ================================================== from place to place

/-- A reduction between two parts of a list. -/
structure Amid (grammar : Grammar) (before after : List Segment) (r : Reduction) : Prop where
  sound : ∃ opened, Sound grammar opened r
  /-- A function is on top only right behind it. -/
  last : ∀ top ∈ r.stack.head?, top.kind = .function → before.getLast? = some top
  /-- Behind a function its parenthesis is next. -/
  called : r.previous = some .function → after.head?.map Segment.kind = some .leftParen

namespace Amid

theorem start : Amid grammar [] segments {} where
  sound := ⟨[], .start⟩
  last := by simp
  called := by simp

/-- The next segment is taken in. -/
theorem step (h : Amid grammar before (x :: after) r)
    (hstep : step grammar r x (after.head?.map Segment.kind) = .ok r') :
    Amid grammar (before ++ [x]) after r' := by
  obtain ⟨opened, hsound⟩ := h.sound
  have hends : Stepped grammar opened r x (after.head?.map Segment.kind)
      (Reduction.step grammar r x (after.head?.map Segment.kind)) :=
    hsound.step fun hfunction => Option.some.inj (h.called hfunction)
  rw [hstep] at hends
  cases hends with
  | @taken _ inner hplaced _ hprevious hinner _ =>
      have hkind : r'.previous = some .function → x.kind = .function :=
        fun hfunction => Option.some.inj (hprevious.symm.trans hfunction)
      refine ⟨⟨inner, hinner⟩, ?_, fun hfunction => hplaced.2 (hkind hfunction)⟩
      intro top htop hf
      have hx := hkind (hinner.previous_of_top top htop hf)
      rw [step_function_ok hx hstep] at htop
      rw [List.getLast?_concat]
      exact htop

end Amid

/-- Every place of a list is reached in the middle of it. -/
theorem amid_of_runBefore : ∀ {after : List Segment} {r : Reduction},
    runBefore grammar after {} before = .ok r → Amid grammar before after r := by
  -- By the last segment: what is behind the others begins with it.
  induction before using List.reverseRecOn with
  | nil =>
      intro after r h
      cases h
      exact .start
  | append_singleton s x ih =>
      intro after r h
      rw [runBefore_concat] at h
      obtain ⟨middle, hmiddle, hstep⟩ := bind_eq_ok.1 h
      exact (ih hmiddle).step hstep

-- ============================================================= the stack

/-- How the stack and the counters stand behind some segments. -/
structure Stacked (operators : Registry OperatorSymbol) (before : List Segment)
    (r : Reduction) : Prop where
  /-- There are as many counters as functions. -/
  counted : r.counters.length = r.stack.countP (·.kind == .function)
  /-- Directly on top of a function is its parenthesis, unless the function is
  the last segment that was taken in. -/
  covered : ∀ above f below, r.stack = above ++ f :: below → f.kind = .function →
    lastKind above = some .leftParen ∨ above = [] ∧ before.getLast? = some f
  /-- An operator directly on top of another would not release it: it binds
  tighter, or as tight and associates to the right. -/
  ordered : ∀ above upper lower below, r.stack = above ++ upper :: lower :: below →
    upper.kind = .operator → lower.kind = .operator →
      ∃ operator waiting, operators.get? upper.text = some operator
        ∧ operators.get? lower.text = some waiting
        ∧ operator.yieldsTo waiting = false
        ∧ waiting.AdmitsRight operator

/-- Wherever a run stands in a list, it goes on from there. Every function on
its stack has a counter, and its parenthesis is directly on top of it unless the
function is the last segment. No operator would have released the one directly
below it. -/
theorem runBefore_stacked (h : runBefore grammar after {} before = .ok r) :
    run grammar {} (before ++ after) = run grammar r after
      ∧ Stacked grammar.operators before r := by
  have hamid := amid_of_runBefore h
  obtain ⟨opened, hsound⟩ := hamid.sound
  have hrest : run grammar {} (before ++ after) = run grammar r after := by
    rw [run_append_runBefore, h]
    rfl
  refine ⟨hrest, hsound.length_counters, ?_, ?_⟩
  · intro above f below hstack hf
    -- On top of everything the function is the last segment; under something it is covered.
    rcases List.eq_nil_or_concat above with rfl | ⟨front, top, rfl⟩
    · exact Or.inr ⟨rfl, hamid.last f (by simp [hstack]) hf⟩
    · have hcovers := hsound.covers
      rw [hstack, List.concat_eq_append, List.append_assoc, List.singleton_append,
        List.isChain_append_cons_cons] at hcovers
      left
      rw [List.concat_eq_append, lastKind_concat, hcovers.2.1 hf]
  · intro above upper lower below hstack hupper hlower
    have hkeeps := hsound.keepsWaiting
    rw [hstack, List.isChain_append_cons_cons] at hkeeps
    obtain ⟨operator, waiting, hoperator, hwaiting, hyields⟩ := hkeeps.2.1 hupper hlower
    exact ⟨operator, waiting, hoperator, hwaiting, hyields,
      OperatorSymbol.yieldsTo_eq_false_iff.1 hyields⟩

/-- The operators of arithmetic and powers, which associate to the right. -/
def powerGrammar : Grammar where
  operators := SymbolTable.standard.operators.add
    { symbol := "^", precedence := 3, formula := fun x y => .ok (x ^ y), associativity := .right }
  limits := .standard
  source := "1 + max(2, 3 * 4 ^ 5 ^ abs(6))"

/-- The segments of the source down to `abs`. -/
def segmentsToAbs : List Segment :=
  [⟨.literal, "1", 0⟩, ⟨.operator, "+", 2⟩, ⟨.function, "max", 4⟩, ⟨.leftParen, "(", 7⟩,
   ⟨.literal, "2", 8⟩, ⟨.comma, ",", 9⟩, ⟨.literal, "3", 11⟩, ⟨.operator, "*", 13⟩,
   ⟨.literal, "4", 15⟩, ⟨.operator, "^", 17⟩, ⟨.literal, "5", 19⟩, ⟨.operator, "^", 21⟩,
   ⟨.function, "abs", 23⟩]

/-- The segments behind. -/
def segmentsBehindAbs : List Segment :=
  [⟨.leftParen, "(", 26⟩, ⟨.literal, "6", 27⟩, ⟨.rightParen, ")", 28⟩, ⟨.rightParen, ")", 29⟩]

/-- Right behind a function in an argument of another one, three operators wait
above each other. -/
theorem runBefore_stacked_powers :
    ∃ r, runBefore powerGrammar segmentsBehindAbs {} segmentsToAbs = .ok r
      ∧ r.stack.map Segment.text = ["abs", "^", "^", "*", "(", "max", "+"]
      ∧ r.counters = [0, 2]
      ∧ run powerGrammar {} (segmentsToAbs ++ segmentsBehindAbs)
        = run powerGrammar r segmentsBehindAbs
      ∧ Stacked powerGrammar.operators segmentsToAbs r := by
  have hbefore : ∃ r, runBefore powerGrammar segmentsBehindAbs {} segmentsToAbs = .ok r
      ∧ r.stack.map Segment.text = ["abs", "^", "^", "*", "(", "max", "+"]
      ∧ r.counters = [0, 2] := ⟨_, rfl, rfl, rfl⟩
  obtain ⟨r, hrun, htexts, hcounters⟩ := hbefore
  exact ⟨r, hrun, htexts, hcounters, runBefore_stacked hrun⟩

end UnitCalc.Reduction
