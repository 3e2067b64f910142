/-
Trees as indented outlines: one line for each node, two spaces deeper than
the line of its parent. An outline may begin at any level; above the outermost
one nothing is indented.

Labels are written as they are. The outline of a tree still tells the tree
apart from any other whose labels have no line breaks, positions aside:
`Proofs/Expr/Outlined` reads it back.
-/
import UnitCalc.Expr.Basic

namespace UnitCalc

/-- A line of an outline. -/
def outlineLine (indent : Int) (label : String) : String :=
  String.ofList (List.replicate (2 * indent).toNat ' ') ++ label

namespace Expr

/-- The line of a node itself. -/
def headline : Expr → String
  | literal text _ => "Literal: " ++ text
  | binary operator _ _ _ => "BinaryOp: " ++ operator.symbol
  | call function arguments _ => "FunctionCall: " ++ function.name ++ ":" ++
      toString arguments.length

mutual

/-- The lines of an expression. -/
def outlineLines (indent : Int) : Expr → List String
  | literal text position => [outlineLine indent (headline (literal text position))]
  | binary operator left right position =>
    outlineLine indent (headline (binary operator left right position)) ::
      (outlineLines (indent + 1) left ++ outlineLines (indent + 1) right)
  | call function arguments position =>
    outlineLine indent (headline (call function arguments position)) ::
      outlineLinesAll (indent + 1) arguments

/-- The lines of several expressions in turn. -/
def outlineLinesAll (indent : Int) : List Expr → List String
  | [] => []
  | e :: es => outlineLines indent e ++ outlineLinesAll indent es

end

end Expr

/-- The lines of a tree. -/
def Tree.outlineLines (indent : Int) (t : Tree) : List String :=
  outlineLine indent ("Root: " ++ t.source) :: t.child.outlineLines (indent + 1)

/-- A tree as an outline. -/
def Tree.outline (indent : Int) (t : Tree) : String :=
  String.intercalate "\n" (t.outlineLines indent)

/-- The lines of a node and all below it. -/
def Node.outlineLines (indent : Int) : Node → List String
  | root t => t.outlineLines indent
  | inner e => e.outlineLines indent

/-- A node and all below it as an outline. -/
def Node.outline (indent : Int) (n : Node) : String :=
  String.intercalate "\n" (n.outlineLines indent)

end UnitCalc
