/-
What can be wrong with an expression, by cause.

An `ExpressionError` is a cause with the place it was found at; its kind, its
fields and its wording (`Error/Message`) are read off the cause, so that none
of them can disagree with another. Each family has a constructor `stated` for
applications that report a failure in words of their own.

The kinds form a tree of two levels below the most general one (`isA`); every
stage of parsing and evaluation is held to the kinds it may report, in
`Proofs/Error/Answers`.
-/
import UnitCalc.Value

namespace UnitCalc

-- ======================================================= the kinds

/-- The families of expression errors. -/
inductive ErrorKind where
  | expression
  | limitExceeded
  | reduction
  | build
  | evaluation
  | unitConsistency
  | functionContract
  | conversion
  | builtin
  deriving DecidableEq, Repr

namespace ErrorKind

/-- Every kind, the general ones before those they cover. -/
def all : List ErrorKind :=
  [expression, limitExceeded, reduction, build, evaluation, unitConsistency, functionContract,
    conversion, builtin]

/-- The name under which errors of a kind are reported. -/
def label : ErrorKind → String
  | expression => "ExpressionError"
  | limitExceeded => "LimitExceededError"
  | reduction => "ReductionError"
  | build => "BuildError"
  | evaluation => "EvaluationError"
  | unitConsistency => "UnitConsistencyError"
  | functionContract => "FunctionContractError"
  | conversion => "ConversionError"
  | builtin => "BuiltinError"

/-- Whether errors of a kind arise while a tree is evaluated. -/
def ofEvaluation : ErrorKind → Bool
  | evaluation | unitConsistency | functionContract | conversion | builtin => true
  | _ => false

/-- Whether every error of the first kind counts as one of the second. -/
def isA (kind other : ErrorKind) : Bool :=
  other == expression || other == kind || (other == evaluation && kind.ofEvaluation)

/-- The kinds that an error of this kind counts as. -/
def ancestry (kind : ErrorKind) : List ErrorKind :=
  all.filter kind.isA

end ErrorKind

-- ====================================================== the causes

/-- Why segments have no postfix order. -/
inductive ReductionIssue where
  | missingClose
  | functionWithoutParenthesis (name : String)
  | unknownOperator (symbol : String)
  | misplacedComma
  | missingOpen
  | emptyArgument (function : String)
  | malformedNesting
  | stated (message : String)
  deriving DecidableEq, Repr

/-- Why instructions build no single tree. -/
inductive BuildIssue where
  | nothingToDo (source : String)
  | operandsLeft (count : Nat)
  | missingOperand (symbol : String)
  | missingArguments (function : String) (count : Nat)
  | stated (message : String)
  deriving DecidableEq, Repr

/-- How a call breaks the declaration of its function. -/
inductive ContractIssue where
  | arity (least most given : Nat)
  | argumentType (index : Nat) (value : Value)
  | stated (message : String) (index : Option Nat) (value : Value)
  deriving DecidableEq, Repr

/-- Why a value has no number in the wanted unit. -/
inductive ConversionIssue where
  | notNumeric (value : Value)
  | unknownUnit (unit : String) (value : Value)
  | noRoute (unit target : String)
  | stated (message : String) (value : Value) (unit : Option String)
  deriving DecidableEq, Repr

/-- Why a built-in function refuses its arguments. -/
inductive BuiltinIssue where
  | missingArgument (index : Nat)
  | notANumber (index : Nat) (value : Value)
  | notFinite (index : Nat) (value : Value)
  | negativeBound (bound : Int)
  | emptyRange (first last : Int)
  | stated (message : String)
  deriving DecidableEq, Repr

/-- What is wrong with an expression. -/
inductive Cause where
  | stated (message : String)
  | limitExceeded (name : String) (limit actual : Int)
  | reduction (issue : ReductionIssue)
  | build (issue : BuildIssue)
  | evaluation (message : String)
  | unitConsistency (operator : String) (left right : Int)
  | functionContract (function : String) (issue : ContractIssue)
  | conversion (issue : ConversionIssue)
  | builtin (function : String) (issue : BuiltinIssue)
  deriving DecidableEq, Repr

/-- The kind that a cause belongs to. -/
def Cause.kind : Cause → ErrorKind
  | stated _ => .expression
  | limitExceeded _ _ _ => .limitExceeded
  | reduction _ => .reduction
  | build _ => .build
  | evaluation _ => .evaluation
  | unitConsistency _ _ _ => .unitConsistency
  | functionContract _ _ => .functionContract
  | conversion _ => .conversion
  | builtin _ _ => .builtin

/-- A cause with the position it was found at and the source it was found
in, as far as they are known. -/
structure ExpressionError where
  cause : Cause
  position : Option Nat := none
  source : Option String := none
  deriving DecidableEq, Repr

/-- The kind of an error. -/
def ExpressionError.kind (e : ExpressionError) : ErrorKind :=
  e.cause.kind

/-- The index of the argument that breaks a contract, if one does. -/
def ContractIssue.index? : ContractIssue → Option Nat
  | arity _ _ _ => none
  | argumentType index _ => some index
  | stated _ index _ => index

/-- The value that breaks a contract, or null. -/
def ContractIssue.value : ContractIssue → Value
  | arity _ _ _ => .null
  | argumentType _ value => value
  | stated _ _ value => value

/-- The value that cannot be converted, or null. -/
def ConversionIssue.value : ConversionIssue → Value
  | notNumeric value => value
  | unknownUnit _ value => value
  | noRoute _ _ => .null
  | stated _ value _ => value

/-- The unit that cannot be converted, if it comes to that. -/
def ConversionIssue.unit? : ConversionIssue → Option String
  | notNumeric _ => none
  | unknownUnit unit _ => some unit
  | noRoute unit _ => some unit
  | stated _ _ unit => unit

end UnitCalc
