/-
Parsing on a call stack that may be too small.

The built tree decides. If its measuring reaches further than the stack has
room (`Calculator.Overflows`), parsing is broken off; otherwise it answers
what it answers on a stack with room for everything (`Calculator.parseOn_eq`).
No limit on nodes or depth enters into this, since those are looked at
afterwards. What does help is a limit on the length of sources: a tree has no
more nodes below its root than its source has characters, so a stack with
room for that many levels is never exhausted
(`Calculator.not_overflows_of_length`).

# The built tree

`Tree.ofSource?` builds the tree that `Tree.built?` does and then checks its
measures (`Tree.ofSource_eq_built`). Conversely a built tree is parsed under
limits that are wide enough for it (`Tree.ofSource_of_built`), and so all that
is known of parsed trees is known of it.
-/
import UnitCalc.Evaluation.Outcome
import UnitCalc.Proofs.Expr.Measured
import UnitCalc.Proofs.Parsing.Limits
import UnitCalc.Proofs.Parsing.Places

namespace UnitCalc

variable {t : SymbolTable} {units : UnitRegistry} {limits : Limits} {source : String}
  {stack : CallStack} {tree : Tree}

namespace Tree

-- ====================================================== the built tree

/-- Parsing builds a tree, and then checks its measures. -/
theorem ofSource_eq_built :
    Tree.ofSource? t units limits source = do
      let tree ← Tree.built? t units limits source
      limits.checkNodes tree.count
      limits.checkDepth tree.depth
      return tree := by
  unfold ofSource? ofSegments? ofInstructions? built?
  simp only [bind_assoc]

/-- A built tree is parsed under limits that it respects. -/
theorem ofSource_of_built (h : Tree.built? t units limits source = .ok tree) :
    Tree.ofSource? t units { limits with nodes := tree.count, depth := tree.depth } source
      = .ok tree := by
  obtain ⟨segments, hsegments, h⟩ := bind_eq_ok.1 h
  obtain ⟨instructions, hreduced, h⟩ := bind_eq_ok.1 h
  obtain ⟨built, hbuilt, hstack⟩ := bind_eq_ok.1 h
  obtain ⟨-, hlength⟩ := (Segment.ofSource_limits limits).1 hsegments
  obtain ⟨-, hcounts⟩ := (Reduction.ofSegments_limits (t.grammar limits source) limits).1 hreduced
  let wider : Limits := { limits with nodes := tree.count, depth := tree.depth }
  have hcut : Segment.ofSource? (.of t units) wider source = .ok segments :=
    (Segment.ofSource_limits wider).2 ⟨⟨limits, hsegments⟩, hlength⟩
  have hlisted : Instruction.ofSegments? ⟨t.operators, wider, source⟩ segments
      = .ok instructions :=
    (Reduction.ofSegments_limits (t.grammar limits source) wider).2 ⟨⟨limits, hreduced⟩, hcounts⟩
  have hnodes : wider.checkNodes tree.count = .ok () := Limits.check_ok (Int.le_refl _)
  have hdepth : wider.checkDepth tree.depth = .ok () := Limits.check_ok (Int.le_refl _)
  rw [ofSource_eq_built]
  unfold built?
  simp only [bind_eq_ok]
  exact ⟨tree, ⟨segments, hcut, instructions, hlisted, built, hbuilt, hstack⟩, (), hnodes, (),
    hdepth, rfl⟩

/-- A built tree has no more nodes below its root than its source has
characters, and no limit on the length was exceeded. -/
theorem count_le_of_built (h : Tree.built? t units limits source = .ok tree) :
    tree.child.count ≤ source.length ∧ (source.length : Int) ≤ limits.expressionLength := by
  have hparsed := ofSource_of_built h
  obtain ⟨-, hlength, -⟩ := Tree.ofSource_eq_ok.1 hparsed
  obtain ⟨segments, hsegments, hbuilt⟩ := bind_eq_ok.1 hparsed
  have hle : tree.count ≤ 1 + source.length :=
    count_le hbuilt (Segment.covered_of_ofSource hsegments)
  rw [count] at hle
  exact ⟨by omega, hlength⟩

-- ==================================================== the measured tree

/-- A tree for which the stack has no room is not parsed. -/
theorem ofSourceOn_exhausted (hbuilt : Tree.built? t units limits source = .ok tree)
    (hroom : stack.room < tree.reach stack.passing) :
    Tree.ofSourceOn? stack t units limits source = .error .stackExhausted := by
  unfold ofSourceOn?
  simp only [hbuilt, mapError_ok, bind, Except.bind, measuredOn_eq, if_pos hroom]

/-- On a stack with room for the built tree parsing is not broken off. -/
theorem ofSourceOn_eq (hroom : ∀ tree, Tree.built? t units limits source = .ok tree →
      tree.reach stack.passing ≤ stack.room) :
    Tree.ofSourceOn? stack t units limits source
      = (Tree.ofSource? t units limits source).mapError .fault := by
  rw [ofSource_eq_built]
  unfold ofSourceOn?
  cases hbuilt : Tree.built? t units limits source with
  | error fault => rfl
  | ok tree =>
      simp only [mapError_ok, bind, Except.bind, measuredOn_eq,
        if_neg (Nat.not_lt.2 (hroom tree hbuilt))]

end Tree

namespace Calculator

/-- Whether the stack is exhausted is all that it decides. -/
theorem parseOn_eq (c : Calculator) (stack : CallStack) (source : String) :
    c.parseOn stack source
      = if c.Overflows stack source then .error .stackExhausted
        else (c.parse source).mapError .fault := by
  split
  · next h =>
      obtain ⟨tree, hbuilt, hroom⟩ := h
      exact Tree.ofSourceOn_exhausted hbuilt hroom
  · next h =>
      exact Tree.ofSourceOn_eq fun tree hbuilt => Nat.not_lt.1 fun hroom => h ⟨tree, hbuilt, hroom⟩

/-- A limit on the length of sources keeps a stack with enough room from being
exhausted, whatever is parsed. -/
theorem not_overflows_of_length {c : Calculator}
    (h : (1 + stack.passing) * c.limits.expressionLength + 2 ≤ stack.room) (source : String) :
    ¬ c.Overflows stack source := by
  rintro ⟨tree, hbuilt, hroom⟩
  obtain ⟨hnodes, hlength⟩ := Tree.count_le_of_built hbuilt
  have hreach : (tree.reach stack.passing : Int) ≤ (1 + stack.passing) * tree.child.count + 2 :=
    mod_cast (Tree.reach_le : tree.reach stack.passing ≤ _)
  have hbound : (1 + stack.passing : Int) * tree.child.count
      ≤ (1 + stack.passing) * c.limits.expressionLength :=
    Int.mul_le_mul_of_nonneg_left (by omega) (by omega)
  omega

end Calculator

end UnitCalc
