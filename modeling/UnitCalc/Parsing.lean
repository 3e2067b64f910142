/-
From source text to tree: cut into segments, put into postfix order, build.

`Tree.ofSource?` measures the built tree on a stack with room for every level
of it. What the theory says of parsed trees it says of this function: a tree
that was returned has been measured, so on a stack that is too small for it
nothing is returned and nothing has to be said.

# Parsing on a call stack

Where it matters that the measuring can be broken off, parsing is
`Tree.ofSourceOn?`. It first builds the tree (`Tree.built?`), with loops only
and so with a few pending calls however long the source is, and then measures
it on the stack it is given. The two ways of parsing agree where the stack
has the room (`Tree.ofSourceOn_eq` in `Proofs/Parsing/Measured`).
-/
import UnitCalc.Config.Basic
import UnitCalc.Expr.Build
import UnitCalc.Expr.Measured
import UnitCalc.Instruction.Reduction
import UnitCalc.Segment.Scan

namespace UnitCalc

/-- The tree of a list of segments under limits. -/
def Tree.ofSegments? (symbols : SymbolTable) (limits : Limits) (source : String)
    (segments : List Segment) : Except Fault Tree := do
  let instructions ← Instruction.ofSegments? ⟨symbols.operators, limits, source⟩ segments
  Tree.ofInstructions? symbols limits source instructions

/-- The tree of a source under limits, on a stack with room for measuring
it. -/
def Tree.ofSource? (symbols : SymbolTable) (units : UnitRegistry) (limits : Limits)
    (source : String) : Except Fault Tree := do
  let segments ← Segment.ofSource? (.of symbols units) limits source
  Tree.ofSegments? symbols limits source segments

/-- The tree of a source, not yet measured. -/
def Tree.built? (symbols : SymbolTable) (units : UnitRegistry) (limits : Limits)
    (source : String) : Except Fault Tree := do
  let segments ← Segment.ofSource? (.of symbols units) limits source
  let instructions ← Instruction.ofSegments? ⟨symbols.operators, limits, source⟩ segments
  Tree.ofStack? source (← Expr.build symbols source [] instructions)

/-- The tree of a source under limits, measured on a call stack. -/
def Tree.ofSourceOn? (stack : CallStack) (symbols : SymbolTable) (units : UnitRegistry)
    (limits : Limits) (source : String) : Except Interruption Tree := do
  let tree ← (Tree.built? symbols units limits source).mapError .fault
  tree.measuredOn stack limits

end UnitCalc
