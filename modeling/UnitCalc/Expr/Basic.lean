/-
Expression trees.

A node holds the operator or function itself, as it was found when the tree
was built, and the position of its text in the source; the root holds the
source. `Node` is the view of a tree from one of its nodes, root included, and
a list of child indices leads from one node to another.

# Recursion and induction

Calls have any number of arguments, so what is defined by recursion on an
expression is defined together with the same for several expressions. Where
the two constructors with children are treated alike, `children` does for
both, and `forestInduction` is the induction that goes with it: over lists of
expressions, taking off the first one and putting its children on.

The measures `count` and `depth` are taken here on a stack with room for every
level; the recursion that can run out of room is in `Expr/Measured`.
-/
import UnitCalc.Instruction.Basic
import UnitCalc.Symbol.Table

namespace UnitCalc

/-- An expression below the root. -/
inductive Expr where
  | literal (text : String) (position : Nat)
  | binary (operator : OperatorSymbol) (left right : Expr) (position : Nat)
  | call (function : FunctionSymbol) (arguments : List Expr) (position : Nat)

/-- A whole expression with its source. -/
structure Tree where
  source : String
  child : Expr

/-- A node of a tree. -/
inductive Node where
  | root (tree : Tree)
  | inner (expr : Expr)

namespace Expr

/-- Where the node's own text begins in the source. -/
def position : Expr → Nat
  | literal _ position => position
  | binary _ _ _ position => position
  | call _ _ position => position

/-- The nodes directly below. -/
def children : Expr → List Expr
  | literal _ _ => []
  | binary _ left right _ => [left, right]
  | call _ arguments _ => arguments

-- ========================================================= measures

mutual

/-- How many nodes an expression has. Counting goes down with one pending call
for each level, and this is its result on a stack with room for them all;
`Expr/Measured` has the counting on a stack. -/
def count : Expr → Nat
  | literal _ _ => 1
  | binary _ left right _ => 1 + count left + count right
  | call _ arguments _ => 1 + countAll arguments

/-- How many nodes several expressions have. -/
def countAll : List Expr → Nat
  | [] => 0
  | e :: es => count e + countAll es

end

mutual

/-- How many nodes the longest way down passes, as it is found on a stack with
room for a pending call for each of them. -/
def depth : Expr → Nat
  | literal _ _ => 1
  | binary _ left right _ => 1 + max (depth left) (depth right)
  | call _ arguments _ => 1 + depthAll arguments

/-- The greatest depth of several expressions. -/
def depthAll : List Expr → Nat
  | [] => 0
  | e :: es => max (depth e) (depthAll es)

end

-- ======================================================== listings

mutual

/-- The instructions of an expression: first those of the operands, then its
own. -/
def postorder : Expr → List Instruction
  | literal text position => [.value text position]
  | binary operator left right position =>
    postorder left ++ postorder right ++ [.operator operator.symbol position]
  | call function arguments position =>
    postorderAll arguments ++ [.call function.name position arguments.length]

/-- The instructions of several expressions in turn. -/
def postorderAll : List Expr → List Instruction
  | [] => []
  | e :: es => postorder e ++ postorderAll es

end

mutual

/-- An expression and all below it, the nodes above first. -/
def preorder : Expr → List Expr
  | literal text position => [literal text position]
  | binary operator left right position =>
    binary operator left right position :: (preorder left ++ preorder right)
  | call function arguments position =>
    call function arguments position :: preorderAll arguments

/-- The listings of several expressions in turn. -/
def preorderAll : List Expr → List Expr
  | [] => []
  | e :: es => preorder e ++ preorderAll es

end

theorem mem_preorderAll {e : Expr} {es : List Expr} :
    e ∈ preorderAll es ↔ ∃ e' ∈ es, e ∈ e'.preorder := by
  induction es with
  | nil => simp [preorderAll]
  | cons e' es ih => simp [preorderAll, ih]

-- ======================================================== children

/-- An expression has its children below it and nothing else. -/
theorem count_eq (e : Expr) : e.count = 1 + countAll e.children := by
  cases e <;> simp [count, children, countAll, Nat.add_assoc]

theorem depth_eq (e : Expr) : e.depth = 1 + depthAll e.children := by
  cases e <;> simp [depth, children, depthAll]

theorem preorder_eq (e : Expr) : e.preorder = e :: preorderAll e.children := by
  cases e <;> simp [preorder, children, preorderAll]

/-- What holds of no expressions, and of an expression in front of others if it
holds of its children and of the others. -/
theorem forestInduction {motive : List Expr → Prop} (nil : motive [])
    (cons : ∀ e es, motive e.children → motive es → motive (e :: es)) (es : List Expr) :
    motive es := by
  induction hcount : countAll es using Nat.strongRecOn generalizing es with
  | ind count ih =>
      cases es with
      | nil => exact nil
      | cons e es =>
          have hsplit : countAll (e :: es) = 1 + countAll e.children + countAll es := by
            rw [countAll, count_eq]
          exact cons e es (ih _ (by omega) e.children rfl) (ih _ (by omega) es rfl)

-- ======================================================= comparison

mutual

/-- Whether two expressions of one symbol table are alike, positions
included. Within a table a symbol stands for one operator and a name for one
function. -/
def alike : Expr → Expr → Bool
  | literal text position, literal text' position' => text == text' && position == position'
  | binary operator left right position, binary operator' left' right' position' =>
    operator.symbol == operator'.symbol && position == position' &&
      alike left left' && alike right right'
  | call function arguments position, call function' arguments' position' =>
    function.name == function'.name && position == position' && alikeAll arguments arguments'
  | _, _ => false

/-- Whether two lists of expressions are alike. -/
def alikeAll : List Expr → List Expr → Bool
  | [], [] => true
  | e :: es, e' :: es' => alike e e' && alikeAll es es'
  | _, _ => false

end

end Expr

namespace Tree

/-- How many nodes a tree has, its root included. -/
def count (t : Tree) : Nat :=
  1 + t.child.count

/-- How many nodes the longest way down passes, the root included. -/
def depth (t : Tree) : Nat :=
  1 + t.child.depth

/-- Whether two trees of one symbol table are alike, sources included. -/
def alike (t t' : Tree) : Bool :=
  t.source == t'.source && t.child.alike t'.child

end Tree

namespace Node

/-- The name of the kind of a node. -/
def kindLabel : Node → String
  | root _ => "Root"
  | inner (.binary _ _ _ _) => "BinaryOp"
  | inner (.call _ _ _) => "FunctionCall"
  | inner (.literal _ _) => "Literal"

/-- What a node shows: the source, a symbol, a name or a text. -/
def label : Node → String
  | root tree => tree.source
  | inner (.binary operator _ _ _) => operator.symbol
  | inner (.call function _ _) => function.name
  | inner (.literal text _) => text

/-- The position of a node; the root's is zero. -/
def position : Node → Nat
  | root _ => 0
  | inner e => e.position

/-- The nodes directly below. -/
def children : Node → List Expr
  | root tree => [tree.child]
  | inner e => e.children

/-- How many nodes there are from a node down. -/
def count : Node → Nat
  | root tree => tree.count
  | inner e => e.count

/-- How many nodes the longest way down passes. -/
def depth : Node → Nat
  | root tree => tree.depth
  | inner e => e.depth

/-- The node that a list of child indices leads to. -/
def at? (n : Node) : List Nat → Option Node
  | [] => some n
  | i :: path => n.children[i]?.bind fun e => (inner e).at? path

/-- The node and all below it, the nodes above first. -/
def preorder : Node → List Node
  | root tree => root tree :: tree.child.preorder.map inner
  | inner e => e.preorder.map inner

theorem count_eq (n : Node) : n.count = 1 + Expr.countAll n.children := by
  cases n with
  | root t => simp [count, Tree.count, children, Expr.countAll]
  | inner e => exact e.count_eq

theorem depth_eq (n : Node) : n.depth = 1 + Expr.depthAll n.children := by
  cases n with
  | root t => simp [depth, Tree.depth, children, Expr.depthAll]
  | inner e => exact e.depth_eq

end Node

end UnitCalc
