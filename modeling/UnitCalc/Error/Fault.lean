/-
Everything that stops a computation.

Most faults are errors of the expression, which a caller gets reported; the
others come from the values, formulas and tables an application brings along
and are passed on as they are. Two of them, `stackUnderflow` and the look at
a word without characters, can only come from the stages of parsing
themselves, and the first never does (`Proofs/Reduction/Invariant`).

That a computation ran out of room for its pending calls is no fault of this
list but an interruption of its own (`Expr/Measured`).
-/
import UnitCalc.Error.Basic

namespace UnitCalc

/-- Why a computation stopped. -/
inductive Fault where
  /-- The expression is wrong. -/
  | expression (error : ExpressionError)
  /-- A symbol that must be registered is not. -/
  | unknownSymbol (symbol : String)
  /-- A piece of the application failed in its own words. -/
  | application (message : String)
  /-- A value that must be a number is none. -/
  | unreadableNumber (value : Value)
  /-- The remainder of an infinite number. -/
  | undefinedRemainder
  /-- The least or greatest of no numbers. -/
  | nothingToCompare (function : String)
  /-- A number too large for a float. -/
  | beyondFloatRange
  /-- A value that cannot even be asked for its number. -/
  | noNumber (value : Value)
  /-- A formula outside of operators divided by zero. -/
  | zeroDivision
  /-- A word without characters was compared with the source. -/
  | emptyWord
  /-- A function of the application asked for an argument it was not
  given. -/
  | missingArgument (index : Nat)
  /-- A stack of the reducer had nothing to give. -/
  | stackUnderflow
  deriving DecidableEq, Repr

/-- A fault that is an error of the expression, with its place. -/
def Fault.of (cause : Cause) (position : Option Nat) (source : Option String) : Fault :=
  .expression ⟨cause, position, source⟩

/-- A fault that is an error of the expression, its place unknown. -/
def Fault.bare (cause : Cause) : Fault :=
  .expression ⟨cause, none, none⟩

/-- The text of an unknown symbol's report. -/
def unknownSymbolMessage (symbol : String) : String :=
  s!"Unknown symbol: {symbol}"

end UnitCalc
