/-
Functions: a name, an implementation and the parameters it declares.

A parameter names the validator that its argument must pass and says whether
it may be left out; the numbers of required and of all parameters bound the
number of arguments. Arguments belong to parameters by their place, when a
call is evaluated as well as when its source is cut; only that the cutting
tries the parameters up to the first required one. Where this parts the two is
said in `Proofs/Evaluation/Governing`.
-/
import UnitCalc.Draw
import UnitCalc.Limits
import UnitCalc.Unit.Registry

namespace UnitCalc

/-- Whether a parameter may be left out. -/
inductive ParameterMode where
  | required
  | optional
  deriving DecidableEq, Repr

namespace Parameter

/-- The type of plain numbers. -/
def numeric : String := "numeric"

/-- The type of any text. -/
def string : String := "string"

end Parameter

/-- A declared parameter; its type is the name of a validator. -/
structure Parameter where
  type : String := Parameter.numeric
  mode : ParameterMode := .required
  deriving DecidableEq, Repr

/-- Whether a parameter must be given. -/
def Parameter.isRequired (p : Parameter) : Bool :=
  p.mode == .required

/-- What an implementation is told about its call. -/
structure CallContext where
  limits : Limits
  position : Nat
  source : String
  units : UnitRegistry

/-- Computes the value of a call from the values of its arguments. -/
abbrev Implementation := List Value → CallContext → Drawing Value

/-- A function that expressions can call. Calls of audited functions are
reported to the application. -/
structure FunctionSymbol where
  name : String
  implementation : Implementation
  parameters : List Parameter := []
  audited : Bool := false

/-- Functions are registered under their names. -/
instance : Keyed FunctionSymbol String where
  key f := f.name

namespace FunctionSymbol

/-- The least number of arguments. -/
def minArity (f : FunctionSymbol) : Nat :=
  f.parameters.countP Parameter.isRequired

/-- The greatest number of arguments. -/
def maxArity (f : FunctionSymbol) : Nat :=
  f.parameters.length

end FunctionSymbol

/-- A named test of argument values. While a source is read it also judges
unfinished arguments. -/
structure Validator where
  name : String
  accepts : Value → Except Fault Bool

/-- Validators are registered under their names. -/
instance : Keyed Validator String where
  key v := v.name

namespace Validator

/-- Accepts plain numbers. -/
def numeric : Validator := ⟨Parameter.numeric, Value.isNumeric⟩

/-- Accepts anything. -/
def string : Validator := ⟨Parameter.string, fun _ => .ok true⟩

end Validator

end UnitCalc
