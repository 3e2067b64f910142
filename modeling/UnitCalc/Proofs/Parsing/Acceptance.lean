/-
What parsing accepts.

The reduction sees to it that parentheses, commas and calls nest
(`nests_of_ofSegments`), and the building that in the end one tree is left. That
operands and operators alternate is seen to by neither: the heights of a stack
cannot tell on which side of its operands an operator stands.

So a list that is accepted is a sentence if it is in order, and only then
(`ofSegments_sentence_iff`). Both directions are at hand: a sentence is in order
whoever accepts it, and what nests and is in order is a sentence
(`Proofs/Grammar/Brackets`). Without being in order an operator may even stand
behind both of its operands (`ofSegments_postfix`).
-/
import UnitCalc.Parsing
import UnitCalc.Proofs.Reduction.Invariant

namespace UnitCalc

/-- Accepted segments have been reduced. -/
theorem Tree.reduced_of_ofSegments {t : SymbolTable} {limits : Limits} {source : String}
    {segments : List Segment} {tree : Tree}
    (h : Tree.ofSegments? t limits source segments = .ok tree) :
    ∃ instructions, Instruction.ofSegments? (t.grammar limits source) segments
      = .ok instructions := by
  unfold Tree.ofSegments? at h
  cases hinstructions : Instruction.ofSegments? (t.grammar limits source) segments with
  | ok instructions => exact ⟨instructions, rfl⟩
  | error fault =>
      rw [hinstructions] at h
      cases h

/-- What is accepted nests. -/
theorem nests_of_ofSegments {t : SymbolTable} {limits : Limits} {source : String}
    {segments : List Segment} {tree : Tree}
    (h : Tree.ofSegments? t limits source segments = .ok tree) : Nests segments := by
  obtain ⟨instructions, hinstructions⟩ := Tree.reduced_of_ofSegments h
  have hreduced := Reduction.reduced (t.grammar limits source) segments
  rw [hinstructions] at hreduced
  cases hreduced with
  | taken _ _ hnests _ => exact hnests

/-- Accepted segments are a sentence exactly if each may stand behind the
one before it. -/
theorem ofSegments_sentence_iff {t : SymbolTable} {limits : Limits} {source : String}
    {segments : List Segment} {tree : Tree}
    (h : Tree.ofSegments? t limits source segments = .ok tree) :
    Sentence segments ↔ InOrder segments := by
  constructor
  · intro hsentence
    exact hsentence.inOrder
  · intro horder
    exact horder.sentence (nests_of_ofSegments h)

/-- The segments of `1 2 +`. -/
def postfixSegments : List Segment :=
  [⟨.literal, "1", 0⟩, ⟨.literal, "2", 2⟩, ⟨.operator, "+", 4⟩]

/-- The segments of `2 * max(3, (1))`. -/
def infixSegments : List Segment :=
  [⟨.literal, "2", 0⟩, ⟨.operator, "*", 2⟩, ⟨.function, "max", 4⟩, ⟨.leftParen, "(", 7⟩,
   ⟨.literal, "3", 8⟩, ⟨.comma, ",", 9⟩, ⟨.leftParen, "(", 11⟩, ⟨.literal, "1", 12⟩,
   ⟨.rightParen, ")", 13⟩, ⟨.rightParen, ")", 14⟩]

/-- Of two accepted lists one is a sentence and the other is not. -/
theorem ofSegments_infix_postfix :
    (∃ tree, Tree.ofSegments? .standard .standard "2 * max(3, (1))" infixSegments = .ok tree)
      ∧ Sentence infixSegments
      ∧ (∃ tree, Tree.ofSegments? .standard .standard "1 2 +" postfixSegments = .ok tree)
      ∧ ¬ Sentence postfixSegments := by
  obtain ⟨product, hproduct⟩ :
      ∃ tree, Tree.ofSegments? .standard .standard "2 * max(3, (1))" infixSegments = .ok tree :=
    ⟨_, rfl⟩
  obtain ⟨sum, hsum⟩ :
      ∃ tree, Tree.ofSegments? .standard .standard "1 2 +" postfixSegments = .ok tree := ⟨_, rfl⟩
  refine ⟨⟨product, hproduct⟩, ?_, ⟨sum, hsum⟩, ?_⟩
  · exact (ofSegments_sentence_iff hproduct).2 (by decide)
  · rw [ofSegments_sentence_iff hsum]
    decide

/-- Postfix order is accepted, with the tree of the sum. -/
theorem ofSegments_postfix :
    ∃ plus, SymbolTable.standard.operators.get? "+" = some plus
      ∧ Tree.ofSegments? .standard .standard "1 2 +" postfixSegments
        = .ok ⟨"1 2 +", .binary plus (.literal "1" 0) (.literal "2" 2) 4⟩
      ∧ ¬ Sentence postfixSegments := by
  refine ⟨_, rfl, rfl, ?_⟩
  intro hsentence
  -- A second literal right behind the first one is out of order.
  have horder := hsentence.inOrder
  revert horder
  decide

end UnitCalc
