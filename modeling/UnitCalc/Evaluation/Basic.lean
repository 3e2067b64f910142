/-
The value of an expression.

Every value carries a unit or none; the two operands of an operator must agree
in that. Operators compute on numbers in the canonical unit, and what keeps
the unit of the first operand is converted back to it. A call checks its
arguments against the parameters of its function before the implementation
runs, and only then.

Values are computed at most once: each node looks into its memo first, and
notes what it computes. Nothing is noted of a computation that fails.

# What can go wrong on the way

The steps that have no state are functions of their own (`numberOf`,
`commonPower`, `applyFormula`, `expressResult`, `checkArity`), so that what
each of them reports can be said apart from the recursion. The recursion only
orders them, and the order shows in what is reported: both operands are
evaluated before their units are compared, and an argument is checked before
the next one is evaluated.

Evaluation calls itself for what is below, a few calls for each level. It is
modelled on a stack with room for them: the trees that it gets respect the
limit on depth, which is checked when they are parsed. Measuring a tree comes
before that check, and there the room matters (`Expr/Measured`).

The evaluation without memos that this one agrees with is in
`Proofs/Evaluation/Uncached`; a machine for the instructions of the tree that
agrees with it is in `Proofs/Evaluation/Postfix`.
-/
import UnitCalc.Evaluation.Progress
import UnitCalc.Expr.Basic
import UnitCalc.Config.Basic

namespace UnitCalc

/-- What an evaluation goes by. -/
structure Environment where
  validators : Registry Validator
  units : UnitRegistry
  canonicalUnit : String
  source : String
  limits : Limits

/-- The environment of a source with its symbols, units and settings. -/
def Environment.of (symbols : SymbolTable) (units : UnitRegistry) (canonicalUnit source : String)
    (limits : Limits) : Environment :=
  ⟨symbols.validators, units, canonicalUnit, source, limits⟩

namespace Environment

/-- An error at a position of the source. -/
def fault (env : Environment) (position : Nat) (cause : Cause) : Fault :=
  .of cause (some position) (some env.source)

-- ========================================================== numbers

/-- The number of a value in the canonical unit; a failed conversion is
located at the node the value belongs to. -/
def numberOf (env : Environment) (position : Nat) (v : Value) : Except Fault Float :=
  match env.units.normalize v env.canonicalUnit with
  | .ok x => .ok x
  | .error (.expression ⟨.conversion issue, _, _⟩) =>
    .error (env.fault position (.conversion issue))
  | .error other => .error other

/-- The memoized number of a node, or that of its value. -/
def normalized (env : Environment) (position : Nat) (evaluate : Evaluation Value) :
    Evaluation Float :=
  Evaluation.rememberNormalized do
    let v ← evaluate
    Evaluation.ofExcept (env.numberOf position v)

-- ======================================================== operators

/-- Applies the formula of an operator. -/
def applyFormula (env : Environment) (operator : OperatorSymbol) (position : Nat)
    (left right : Float) : Except Fault Float :=
  match operator.formula left right with
  | .ok x => .ok x
  | .error (.zeroDivision message) => .error (env.fault position (.evaluation message))
  | .error .undefinedRemainder => .error .undefinedRemainder

/-- Checks that both operands carry a unit or neither does; tells which. -/
def commonPower (env : Environment) (operator : OperatorSymbol) (position : Nat)
    (left right : Value) : Except Fault Nat := do
  let leftPower ← env.units.unitPower left
  let rightPower ← env.units.unitPower right
  if leftPower ≠ rightPower then
    throw (env.fault position (.unitConsistency operator.symbol leftPower rightPower))
  return leftPower

/-- Expresses the result of an operator: in the unit of the first operand,
if the operator retains it, and as a plain number otherwise. A result is
taken to be in whatever the first operand's unit normalizes to. -/
def expressResult (env : Environment) (operator : OperatorSymbol) (left right : Value)
    (result : Float) : Except Fault Value := do
  match ← env.units.unitOf left, ← env.units.unitOf right with
  | some leftUnit, some rightUnit =>
    if operator.retainsUnit leftUnit rightUnit then
      let base ← env.units.normalizedUnit leftUnit env.canonicalUnit
      let x ← env.units.convert result base leftUnit
      return .text (Quantity.written x leftUnit)
    else return .number result
  | _, _ => return .number result

-- ============================================================ calls

/-- What an implementation is told about a call. -/
def callContext (env : Environment) (position : Nat) : CallContext :=
  ⟨env.limits, position, env.source, env.units⟩

/-- Checks the number of arguments of a call. -/
def checkArity (env : Environment) (function : FunctionSymbol) (position given : Nat) :
    Except Fault Unit :=
  if given < function.minArity ∨ function.maxArity < given then
    .error (env.fault position
      (.functionContract function.name (.arity function.minArity function.maxArity given)))
  else .ok ()

/-- Checks an argument against its parameter. A parameter of an unknown type
takes anything, with a warning. -/
def checkArgument (env : Environment) (function : FunctionSymbol) (index : Nat)
    (parameter : Parameter) (v : Value) (position : Nat) : Evaluation Unit := do
  match env.validators.get? parameter.type with
  | none => Evaluation.warn ⟨function.name, parameter.type, index⟩
  | some validator =>
    if !(← Evaluation.ofExcept (validator.accepts v)) then
      throw (env.fault position (.functionContract function.name (.argumentType index v)))

end Environment

-- ======================================================= evaluation

namespace Expr

mutual

/-- The value of an expression. -/
def evaluate (env : Environment) : Expr → Evaluation Value
  | literal text _ => Evaluation.rememberValue (pure (.text text))
  | binary operator left right position =>
    Evaluation.rememberValue do
      let leftValue ← Evaluation.below 0 (evaluate env left)
      let rightValue ← Evaluation.below 1 (evaluate env right)
      let power ← Evaluation.ofExcept (env.commonPower operator position leftValue rightValue)
      let x ← Evaluation.below 0 (env.normalized left.position (evaluate env left))
      let y ← Evaluation.below 1 (env.normalized right.position (evaluate env right))
      let result ← Evaluation.ofExcept (env.applyFormula operator position x y)
      if power = 0 then return .number result
      Evaluation.ofExcept (env.expressResult operator leftValue rightValue result)
  | call function arguments position =>
    Evaluation.rememberValue do
      Evaluation.ofExcept (env.checkArity function position arguments.length)
      let values ← evaluateArguments env function 0 arguments function.parameters
      Evaluation.note ⟨function, values⟩
      Evaluation.drawing (function.implementation values (env.callContext position))

/-- The values of the arguments of a call, each checked against its
parameter; the first of them is the child of an index. -/
def evaluateArguments (env : Environment) (function : FunctionSymbol) (index : Nat) :
    List Expr → List Parameter → Evaluation (List Value)
  | e :: es, parameter :: parameters => do
    let v ← Evaluation.below index (evaluate env e)
    env.checkArgument function index parameter v e.position
    let values ← evaluateArguments env function (index + 1) es parameters
    return v :: values
  | _, _ => return []

end

/-- The value of an expression in the canonical unit. -/
def normalize (env : Environment) (e : Expr) : Evaluation Float :=
  env.normalized e.position (e.evaluate env)

end Expr

namespace Node

/-- The value of a node. -/
def evaluate (env : Environment) : Node → Evaluation Value
  | root tree => Evaluation.rememberValue (Evaluation.below 0 (tree.child.evaluate env))
  | inner e => e.evaluate env

/-- The value of a node in the canonical unit. -/
def normalize (env : Environment) (n : Node) : Evaluation Float :=
  env.normalized n.position (n.evaluate env)

/-- Carries out a computation at the node that a path leads to, if it leads
to one. -/
def visit {α : Type} (n : Node) (act : Node → Evaluation α) :
    List Nat → Evaluation (Option α)
  | [] => some <$> act n
  | i :: path =>
    match n.children[i]? with
    | some e => Evaluation.below i ((inner e).visit act path)
    | none => return none

end Node

end UnitCalc
