/-
Bounds on expressions: their length, the depth and size of their trees, and
the arguments of a call.

A bound may be any whole number; a negative one admits nothing. The length is
checked before a source is looked at, the arguments of a call when the call is
complete, and the tree when it has been built and measured. So the bounds on
the tree keep no tree from being measured: what a tree too deep for the stack
of pending calls comes to is said in `Expr/Measured`.

That limits only filter, and change nothing that they admit, is
`Proofs/Parsing/Limits`.
-/
import UnitCalc.Error.Fault

namespace UnitCalc

/-- How long and how large an expression may be. -/
structure Limits where
  expressionLength : Int := 4096
  depth : Int := 64
  nodes : Int := 1024
  arguments : Int := 16
  deriving DecidableEq, Repr

namespace Limits

/-- Room for any reasonable expression. -/
def standard : Limits := {}

/-- The names of the limits, in the order of `values`. -/
def names : List String :=
  ["max_expression_length", "max_ast_depth", "max_ast_nodes", "max_function_args"]

/-- The limits themselves, in the order of `names`. -/
def values (limits : Limits) : List Int :=
  [limits.expressionLength, limits.depth, limits.nodes, limits.arguments]

/-- The limits by name, in the order of the names. -/
def listed (limits : Limits) : List (String × Int) :=
  [("max_ast_depth", limits.depth), ("max_ast_nodes", limits.nodes),
    ("max_expression_length", limits.expressionLength), ("max_function_args", limits.arguments)]

/-- Accepts what does not exceed a limit. -/
def check (name : String) (limit actual : Int) : Except Fault Unit :=
  if limit < actual then .error (.bare (.limitExceeded name limit actual)) else .ok ()

/-- Checks the number of characters of an expression. -/
def checkLength (limits : Limits) (length : Int) : Except Fault Unit :=
  check "max_expression_length" limits.expressionLength length

/-- Checks the depth of a tree. -/
def checkDepth (limits : Limits) (depth : Int) : Except Fault Unit :=
  check "max_ast_depth" limits.depth depth

/-- Checks the number of nodes of a tree. -/
def checkNodes (limits : Limits) (count : Int) : Except Fault Unit :=
  check "max_ast_nodes" limits.nodes count

/-- Checks the number of arguments of a call. -/
def checkArguments (limits : Limits) (count : Int) : Except Fault Unit :=
  check "max_function_args" limits.arguments count

end Limits

end UnitCalc
