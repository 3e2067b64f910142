/-
Parentheses around a whole expression.

An expression that is parsed is parsed in parentheses as well, to the same tree
with every node a character further on (`Tree.ofSource_inParens`). Each stage of
the parsing is told what it does with what the stage before gives: the segments
are the same, a character further on, between two parentheses
(`Proofs/Scan/Parenthesized`); parentheses leave no instructions
(`Proofs/Reduction/Framed`), and moved segments moved ones
(`Proofs/Reduction/Relocation`); and moved instructions build the moved tree
(`Proofs/Expr/Moved`).

No limit but that on the length of the source sees the parentheses. The measures
of the tree are those it had, and no call has another argument.
-/
import UnitCalc.Proofs.Evaluation.Handing
import UnitCalc.Proofs.Expr.Moved
import UnitCalc.Proofs.Parsing.Inverse
import UnitCalc.Proofs.Reduction.Framed
import UnitCalc.Proofs.Scan.Parenthesized

namespace UnitCalc

/-- An expression that is parsed is parsed in parentheses, and every node of it
is a character further on. -/
theorem Tree.ofSource_inParens {symbols : SymbolTable} {units : UnitRegistry} {limits : Limits}
    {source : String} {tree : Tree} (h : Tree.ofSource? symbols units limits source = .ok tree)
    (hlength : (("(" ++ source ++ ")").length : Int) ≤ limits.expressionLength) :
    Tree.ofSource? symbols units limits ("(" ++ source ++ ")")
      = .ok ⟨"(" ++ source ++ ")", tree.child.moved (· + 1)⟩ := by
  obtain ⟨segments, hsegments, h⟩ := bind_eq_ok.1 h
  obtain ⟨instructions, hinstructions, h⟩ := bind_eq_ok.1 h
  obtain ⟨⟨-, hover, rfl⟩, hnodes, hdepth⟩ := Tree.ofInstructions_eq_ok.1 h
  -- The reduction does not look at places: what it makes of moved segments is moved.
  have hmoved : Instruction.ofSegments? ⟨symbols.operators, limits, "(" ++ source ++ ")"⟩
      (segments.map (Segment.moved (· + 1)))
        = .ok (tree.child.postorder.map (Instruction.moved (· + 1))) := by
    have hmirrors := Instruction.ofSegments_moved ⟨symbols.operators, limits, source⟩
      ("(" ++ source ++ ")") (· + 1) segments
    rw [hinstructions] at hmirrors
    exact hmirrors.ok_eq
  refine bind_eq_ok.2 ⟨_, Segment.ofSource_parenthesized hsegments hlength, ?_⟩
  refine bind_eq_ok.2 ⟨_, Instruction.ofSegments_enclosed rfl rfl hmoved, ?_⟩
  refine Tree.ofInstructions_eq_ok.2
    ⟨⟨rfl, hover.moved (· + 1), Expr.postorder_moved (· + 1) tree.child⟩, ?_, ?_⟩
  · rw [Tree.count, Expr.count_moved]
    exact hnodes
  · rw [Tree.depth, Expr.depth_moved]
    exact hdepth

/-- Blanks around the expression, a sign that begins it, a call of texts and a
percent sign that ends it. -/
theorem Tree.ofSource_inParens_joining :
    ∃ child : Expr,
      child.postorder = [.value "-2" 1, .value "a + b" 10, .value "-" 16, .call "join" 5 2,
        .value "50%" 22, .operator "*" 20, .operator "+" 3]
        ∧ Tree.ofSource? joiningCalculator.symbols joiningCalculator.units .standard
            " -2+ join(a + b,- ) * 50% "
          = .ok ⟨" -2+ join(a + b,- ) * 50% ", child⟩
        ∧ Tree.ofSource? joiningCalculator.symbols joiningCalculator.units .standard
            "( -2+ join(a + b,- ) * 50% )"
          = .ok ⟨"( -2+ join(a + b,- ) * 50% )", child.moved (· + 1)⟩ := by
  have hsource : "(" ++ " -2+ join(a + b,- ) * 50% " ++ ")" = "( -2+ join(a + b,- ) * 50% )" := by
    decide
  have hlisted : (Tree.ofSource? joiningCalculator.symbols joiningCalculator.units .standard
      " -2+ join(a + b,- ) * 50% ").toOption.map (fun tree => (tree.source, tree.child.postorder))
        = some (" -2+ join(a + b,- ) * 50% ",
          [.value "-2" 1, .value "a + b" 10, .value "-" 16, .call "join" 5 2,
            .value "50%" 22, .operator "*" 20, .operator "+" 3]) := by
    decide +kernel
  obtain ⟨⟨source, child⟩, hsome, hlists⟩ := Option.map_eq_some_iff.1 hlisted
  obtain ⟨rfl, hpostorder⟩ : source = _ ∧ _ := Prod.mk.inj hlists
  have hparse := toOption_eq_some.1 hsome
  have hinside := Tree.ofSource_inParens hparse (by decide)
  rw [hsource] at hinside
  exact ⟨child, hpostorder, hparse, hinside⟩

end UnitCalc
