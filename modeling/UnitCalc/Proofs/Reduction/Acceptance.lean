/-
What a reduction accepts, without its stack.

There are five conditions on the list of segments (`Reducible`), each about
single segments and what stands in front of them or behind. A call with more
arguments than the limit admits is the only other reason for which a reduction
fails (`ofSegments_ok_iff_reducible`).

# Where the conditions come from

A step asks two things of a segment: what is registered and what comes next
(`Placed`), and which parentheses are open (`bracketsBehind`). The invariant
says that a reduction goes through exactly where all segments are placed and
nest (`Proofs/Reduction/Invariant`). Being placed is a condition on every
segment anyway; nesting is a walk through the list, which
`Proofs/Grammar/Matching` has taken apart into matching parentheses and a
condition on every comma and closing parenthesis (`Reduction.placed_nests_iff`).

The limit is a hypothesis about the answer, not about the list: how many
arguments are counted is another matter (`Proofs/Reduction/Enclosed`).
-/
import UnitCalc.Proofs.Grammar.Matching
import UnitCalc.Proofs.Reduction.Invariant

namespace UnitCalc

/-- Segments that have a postfix order. -/
structure Reducible (operators : Registry OperatorSymbol) (segments : List Segment) : Prop where
  /-- Right behind every function its parenthesis opens. -/
  called : ∀ before f after, segments = before ++ f :: after → f.kind = .function →
    after.head?.map Segment.kind = some .leftParen
  /-- Every operator is registered. -/
  known : ∀ x ∈ segments, x.kind = .operator → (operators.get? x.text).isSome
  /-- Every parenthesis has its partner. -/
  balanced : Balanced segments
  /-- Every comma stands in a call, and an argument may end there. -/
  separated : ∀ before x after, segments = before ++ x :: after → x.kind = .comma →
    InCall before ∧ lastKind before ≠ some .leftParen ∧ lastKind before ≠ some .comma
  /-- No parenthesis closes right behind a comma. -/
  closed : ∀ before x after, segments = before ++ x :: after → x.kind = .rightParen →
    lastKind before ≠ some .comma

namespace Reduction

/-- What is asked of all segments, place by place. -/
theorem allPlaced_iff {grammar : Grammar} {segments : List Segment} :
    AllPlaced grammar segments
      ↔ Everywhere (fun _ x after => Placed grammar x (after.head?.map Segment.kind))
        segments := by
  induction segments with
  | nil => exact iff_of_true trivial (everywhere_nil _)
  | cons x more ih => rw [AllPlaced, ih, everywhere_cons]

/-- The conditions by which a step goes, put together over the whole list. -/
theorem placed_nests_iff {grammar : Grammar} {segments : List Segment} :
    AllPlaced grammar segments ∧ Nests segments ↔ Reducible grammar.operators segments := by
  rw [allPlaced_iff, nests_iff]
  constructor
  · rintro ⟨hplaced, hbalanced, hseparates⟩
    refine ⟨?_, ?_, hbalanced, ?_, ?_⟩
    · intro before f after hsplit hf
      exact (hplaced before f after hsplit).2 hf
    · intro x hmem hx
      obtain ⟨before, after, hsplit⟩ := List.append_of_mem hmem
      exact (hplaced before x after hsplit).1 hx
    · intro before x after hsplit hx
      exact (hseparates before x after hsplit).comma hx
    · intro before x after hsplit hx
      exact (hseparates before x after hsplit).close hx
  · intro h
    refine ⟨?_, h.balanced, ?_⟩
    · intro before x after hsplit
      refine ⟨fun hx => h.known x ?_ hx, fun hx => h.called before x after hsplit hx⟩
      rw [hsplit]
      exact List.mem_append_right before List.mem_cons_self
    · intro before x after hsplit
      exact ⟨h.separated before x after hsplit, h.closed before x after hsplit⟩

end Reduction

/-- Unless a call has too many arguments, exactly the reducible lists have a
postfix order, and every other one is an error of the reduction. -/
theorem ofSegments_ok_iff_reducible (grammar : Grammar) (segments : List Segment)
    (hlimit : ∀ count, Instruction.ofSegments? grammar segments
      ≠ .error (.bare (.limitExceeded "max_function_args" grammar.limits.arguments count))) :
    ((∃ instructions, Instruction.ofSegments? grammar segments = .ok instructions)
        ↔ Reducible grammar.operators segments)
      ∧ (¬ Reducible grammar.operators segments →
        ∃ error, Instruction.ofSegments? grammar segments = .error (.expression error)
          ∧ error.kind = .reduction) := by
  have hends := Reduction.reduced grammar segments
  rw [← Reduction.placed_nests_iff]
  generalize Instruction.ofSegments? grammar segments = result at hends hlimit ⊢
  cases hends with
  | taken instructions hplaced hnests _ =>
      have hall := And.intro hplaced hnests
      exact ⟨iff_of_true ⟨instructions, rfl⟩ hall, fun hnot => absurd hall hnot⟩
  | refused x reason _ hbecause =>
      exact ⟨iff_of_false (by simp) hbecause, fun _ => ⟨_, rfl, rfl⟩⟩
  | overfull _ => exact absurd rfl (hlimit _)

/-- The segments of `max(1, 2)`. -/
def maxSegments : List Segment :=
  [⟨.function, "max", 0⟩, ⟨.leftParen, "(", 3⟩, ⟨.literal, "1", 4⟩, ⟨.comma, ",", 5⟩,
   ⟨.literal, "2", 7⟩, ⟨.rightParen, ")", 8⟩]

/-- The segments of `(1, 2)`, whose comma belongs to no call. -/
def tupleSegments : List Segment :=
  [⟨.leftParen, "(", 0⟩, ⟨.literal, "1", 1⟩, ⟨.comma, ",", 2⟩, ⟨.literal, "2", 4⟩,
   ⟨.rightParen, ")", 5⟩]

/-- With two arguments admitted, the call is accepted; the tuple is not. -/
theorem reducible_call_not_tuple :
    Reducible SymbolTable.standard.operators maxSegments
      ∧ ¬ Reducible SymbolTable.standard.operators tupleSegments := by
  have hcall : Instruction.ofSegments? ⟨SymbolTable.standard.operators, { arguments := 2 }, ""⟩
      maxSegments = .ok [.value "1" 4, .value "2" 7, .call "max" 0 2] := rfl
  have htuple : Instruction.ofSegments? ⟨SymbolTable.standard.operators, { arguments := 2 }, ""⟩
      tupleSegments = .error (.of (.reduction .misplacedComma) (some 2) (some "")) := rfl
  constructor
  · exact (ofSegments_ok_iff_reducible _ maxSegments fun count => by
      simp [hcall]).1.1 ⟨_, hcall⟩
  · intro h
    obtain ⟨instructions, hok⟩ := (ofSegments_ok_iff_reducible
      ⟨SymbolTable.standard.operators, { arguments := 2 }, ""⟩ tupleSegments fun count => by
        simp [htuple, Fault.of, Fault.bare]).1.2 h
    simp [htuple] at hok

end UnitCalc
