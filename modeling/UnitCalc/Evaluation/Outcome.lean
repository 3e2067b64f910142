/-
The outcome of a calculation: a value, with its number in the canonical unit
where it has one, or the error that was found.

Only errors of the expression become outcomes; other faults are passed on.
That none are left to pass on in a standard calculation, but for the remainder
of an infinite number, is the subject of `Proofs/Evaluation/Outcomes`.

# Parsing and the stack

A calculator parses on a stack with room for measuring the tree (`parse`) or
on one that may be too small (`parseOn`). All that is said about calculations
is said of the first: on the second nothing is calculated of a tree that
could not be measured. `Overflows` tells when this is so, and it can be
computed, since the tree is built before it is measured.
-/
import UnitCalc.Evaluation.Basic
import UnitCalc.Error.Message
import UnitCalc.Parsing

namespace UnitCalc

/-- What came of a calculation. -/
inductive Outcome where
  | success (value : Value) (normalized : Option Float)
  | failure (error : ExpressionError)
  deriving DecidableEq, Repr

namespace Evaluation

/-- Turns an error of the expression into an answer. -/
def attempt {α : Type} (act : Evaluation α) : Evaluation (Except ExpressionError α) :=
  tryCatch (Except.ok <$> act) fun fault =>
    match fault with
    | .expression error => pure (.error error)
    | other => throw other

end Evaluation

/-- The outcome of a node. A value that cannot be normalized, such as a raw
text, is still a success. -/
def Node.outcome (env : Environment) (n : Node) : Evaluation Outcome := do
  match ← Evaluation.attempt (n.evaluate env) with
  | .error error => return .failure error
  | .ok value =>
    match ← Evaluation.attempt (n.normalize env) with
    | .ok x => return .success value (some x)
    | .error error =>
      if error.kind = .conversion then return .success value none
      throw (.expression error)

/-- A calculation: its symbols, units and settings. -/
structure Calculator where
  symbols : SymbolTable
  units : UnitRegistry
  canonicalUnit : String
  limits : Limits

namespace Calculator

/-- The calculator of some settings, with its symbols and perhaps units of
its own. -/
def of (symbols : SymbolTable) (units? : Option UnitRegistry) (config : Config) : Calculator :=
  ⟨symbols, units?.getD config.units, config.canonicalUnit, config.limits⟩

/-- The tree of a source, on a stack with room for measuring it. -/
def parse (c : Calculator) (source : String) : Except Fault Tree :=
  Tree.ofSource? c.symbols c.units c.limits source

/-- The tree of a source, on a call stack that may be too small for it. -/
def parseOn (c : Calculator) (stack : CallStack) (source : String) : Except Interruption Tree :=
  Tree.ofSourceOn? stack c.symbols c.units c.limits source

/-- Whether the tree of a source goes deeper than a call stack has room for
measuring it. -/
def Overflows (c : Calculator) (stack : CallStack) (source : String) : Prop :=
  ∃ tree, Tree.built? c.symbols c.units c.limits source = .ok tree
    ∧ stack.room < tree.reach stack.passing

/-- Whether it does can be computed by building the tree. -/
instance (c : Calculator) (stack : CallStack) (source : String) :
    Decidable (c.Overflows stack source) :=
  match h : Tree.built? c.symbols c.units c.limits source with
  | .ok tree =>
    decidable_of_iff (stack.room < tree.reach stack.passing) (by simp [Overflows, h])
  | .error _ => isFalse (by simp [Overflows, h])

/-- The environment in which a source is evaluated. -/
def environment (c : Calculator) (source : String) : Environment :=
  .of c.symbols c.units c.canonicalUnit source c.limits

/-- Parses and evaluates a source; errors of either are outcomes. -/
def calculate (c : Calculator) (source : String) : Evaluation Outcome :=
  match c.parse source with
  | .ok tree => (Node.root tree).outcome (c.environment source)
  | .error (.expression error) => return .failure error
  | .error fault => throw fault

/-- Parses and evaluates a source; errors are faults. -/
def demand (c : Calculator) (source : String) : Evaluation Value := do
  let tree ← Evaluation.ofExcept (c.parse source)
  (Node.root tree).evaluate (c.environment source)

end Calculator

end UnitCalc
