/-
The wording of expression errors.

Every text an error can show is written here and nowhere else, one line per
cause; `ExpressionError.inContext` adds the source with a mark under the
position. Values appear in messages as `Value.shown` has them, and positions
count characters, so the mark stands under the character that it means.
-/
import UnitCalc.Error.Basic
import UnitCalc.Text.Blank

namespace UnitCalc

/-- The wording of a reduction issue. -/
def ReductionIssue.message : ReductionIssue → String
  | missingClose => "Unbalanced parenthesis: missing ')'"
  | functionWithoutParenthesis name => s!"Function '{name}' must be followed by '('"
  | unknownOperator symbol => s!"Unknown operator: '{symbol}'"
  | misplacedComma => "Misplaced comma: not inside a function call"
  | missingOpen => "Cannot find previous left parenthesis"
  | emptyArgument function => s!"Empty argument in call to '{function}'"
  | malformedNesting => "Malformed function call nesting"
  | stated message => message

/-- A source as a message shows it: blank ones are named. -/
def describedSource (source : String) : String :=
  if Text.allBlank source.toList then "[empty string]" else source

/-- The wording of a build issue. -/
def BuildIssue.message : BuildIssue → String
  | nothingToDo source =>
    let described := describedSource source
    s!"No operation was done for {described}"
  | operandsLeft count => s!"Expression was not fully reduced: {count} operands left"
  | missingOperand symbol => s!"Missing operand for operator '{symbol}'"
  | missingArguments function count => s!"Missing arguments for function call {function}:{count}"
  | stated message => message

/-- The wording of a broken contract. -/
def ContractIssue.message (function : String) : ContractIssue → String
  | arity least most given =>
    s!"Function {function} allows between {least} and {most} parameters, {given} given"
  | argumentType index value =>
    let shown := value.shown
    s!"Function {function} argument #{index + 1} has invalid type, {shown} given"
  | stated message _ _ => message

/-- The wording of a failed conversion. -/
def ConversionIssue.message : ConversionIssue → String
  | notNumeric value =>
    let shown := value.shown
    s!"Cannot normalize non-numeric value: {shown}"
  | unknownUnit unit _ => s!"Invalid unit found: {unit}"
  | noRoute unit target => s!"Cannot convert from '{unit}' to '{target}'"
  | stated message _ _ => message

/-- The wording of a refused argument, after the function's name. -/
def BuiltinIssue.message : BuiltinIssue → String
  | missingArgument index => s!"missing argument at index {index}"
  | notANumber index value =>
    let shown := value.shown
    s!"argument #{index + 1} must be a number, got {shown}"
  | notFinite index value =>
    let shown := value.shown
    s!"argument #{index + 1} must be finite, got {shown}"
  | negativeBound bound => s!"upper bound must not be negative, got {bound}"
  | emptyRange first last => s!"empty range [{first}, {last}]"
  | stated message => message

/-- The wording of a cause. -/
def Cause.message : Cause → String
  | stated message => message
  | limitExceeded name limit actual =>
    s!"Limit exceeded: {name} (limit: {limit}, actual: {actual})"
  | reduction issue => issue.message
  | build issue => issue.message
  | evaluation message => message
  | unitConsistency operator left right =>
    s!"Unit power must be same for '{operator}' operator (left: {left}, right: {right})"
  | functionContract function issue => issue.message function
  | conversion issue => issue.message
  | builtin function issue =>
    let message := issue.message
    s!"{function}: {message}"

/-- The wording of an error, without its place. -/
def ExpressionError.message (e : ExpressionError) : String :=
  e.cause.message

/-- The wording of an error and, where the place is known, the source with a
mark under the position. -/
def ExpressionError.inContext (e : ExpressionError) : String :=
  match e.position, e.source with
  | some position, some source =>
    let message := e.message
    let margin := String.ofList (List.replicate position ' ')
    s!"{message}\n  {source}\n  {margin}^"
  | _, _ => e.message

end UnitCalc
