/-
Trees from instructions in postfix order.

Finished expressions wait on a stack; an operator takes the two on top and a
call as many as it says. One expression must be left, and the tree must
respect the limits. The operators and functions are looked up now and kept in
the tree, so what becomes of the table later does not change it.

That the listing of a tree builds the tree, and that only listings do, is
`Proofs/Expr/Rebuild` and `Proofs/Parsing/Inverse`. The checks at the end
measure the tree first, which `Expr/Measured` does on a stack.
-/
import UnitCalc.Expr.Basic

namespace UnitCalc

namespace Expr

/-- An error of the building, at a position of the source. -/
def buildFault (source : String) (position : Nat) (issue : BuildIssue) : Fault :=
  .of (.build issue) (some position) (some source)

/-- Carries out one instruction on a stack of expressions, its top in
front. -/
def buildStep (symbols : SymbolTable) (source : String) (stack : List Expr) :
    Instruction → Except Fault (List Expr)
  | .value text position => .ok (literal text position :: stack)
  | .operator symbol position =>
    match stack with
    | right :: left :: below => do
      let operator ← symbols.operators.require symbol
      return binary operator left right position :: below
    | _ => .error (buildFault source position (.missingOperand symbol))
  | .call name position arity =>
    if stack.length < arity then
      .error (buildFault source position (.missingArguments name arity))
    else do
      let function ← symbols.functions.require name
      return call function (stack.take arity).reverse position :: stack.drop arity

/-- Carries out instructions, one after the other. -/
def build (symbols : SymbolTable) (source : String) :
    List Expr → List Instruction → Except Fault (List Expr)
  | stack, [] => .ok stack
  | stack, instruction :: more => do
    build symbols source (← buildStep symbols source stack instruction) more

end Expr

namespace Tree

/-- The tree of the one expression on a stack. -/
def ofStack? (source : String) (stack : List Expr) : Except Fault Tree :=
  match stack.reverse with
  | [] => .error (Expr.buildFault source 0 (.nothingToDo source))
  | [child] => .ok { source, child }
  | _ :: second :: _ =>
    .error (Expr.buildFault source second.position (.operandsLeft stack.length))

/-- The tree of a list of instructions. It is measured before the limits are
looked at, here on a stack with room for every level of it; `measuredOn` is
the measuring that can run out of room. -/
def ofInstructions? (symbols : SymbolTable) (limits : Limits) (source : String)
    (instructions : List Instruction) : Except Fault Tree := do
  let tree ← ofStack? source (← Expr.build symbols source [] instructions)
  limits.checkNodes tree.count
  limits.checkDepth tree.depth
  return tree

end Tree

end UnitCalc
