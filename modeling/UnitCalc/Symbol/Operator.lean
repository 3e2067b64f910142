/-
Binary operators: their place in the order of precedence, the formula they
apply to two numbers, and whether a result keeps the unit of its first
operand.

The standard operators are those of arithmetic with a remainder. A formula
may have no result. Division by zero is reported as an error of the
expression; the remainder of an infinite number is not, and escapes as a fault
(`Proofs/Evaluation/Outcomes`).
-/
import UnitCalc.Binary.Round
import UnitCalc.Registry

namespace UnitCalc

/-- Why a formula has no result. -/
inductive FormulaFault where
  | zeroDivision (message : String)
  | undefinedRemainder
  deriving DecidableEq, Repr

/-- The formula of an operator. -/
abbrev Formula := Float → Float → Except FormulaFault Float

/-- Which of two operators of one precedence is applied first. -/
inductive Associativity where
  | left
  | right
  deriving DecidableEq, Repr

/-- Decides from the units of both operands whether the result is expressed
in the first. -/
abbrev Retention := String → String → Bool

/-- A binary operator. -/
structure OperatorSymbol where
  symbol : String
  /-- The higher binds tighter. -/
  precedence : Int
  formula : Formula
  associativity : Associativity := .left
  /-- Whether the symbol may be the sign of a number. -/
  unary : Bool := false
  retainsUnit : Retention := fun _ _ => false

/-- Operators are registered under their symbols. -/
instance : Keyed OperatorSymbol String where
  key o := o.symbol

namespace OperatorSymbol

/-- Whether of two such operators the first one is applied first. -/
def isLeftAssociative (o : OperatorSymbol) : Bool :=
  o.associativity == .left

/-- Whether an operator waiting on the left is applied before this one
takes its right operand. -/
def yieldsTo (o waiting : OperatorSymbol) : Bool :=
  decide (o.precedence < waiting.precedence) ||
    (waiting.precedence == o.precedence && o.isLeftAssociative)

-- =========================================== standard operators

/-- The quotient, except by zero. -/
def quotient : Formula := fun x y =>
  if y == 0.0 then .error (.zeroDivision "Division by zero") else .ok (x / y)

/-- The remainder with the sign of the dividend, except by zero or of an
infinite number. -/
def remainder : Formula := fun x y =>
  if y == 0.0 then .error (.zeroDivision "Modulo by zero")
  else
    match Binary.remainder? x y with
    | some z => .ok z
    | none => .error .undefinedRemainder

/-- The operators of arithmetic. Sums, differences and products keep the
unit of their first operand. -/
def standard : List OperatorSymbol :=
  [{ symbol := "+", precedence := 1, formula := fun x y => .ok (x + y), unary := true,
     retainsUnit := fun _ _ => true },
   { symbol := "-", precedence := 1, formula := fun x y => .ok (x - y), unary := true,
     retainsUnit := fun _ _ => true },
   { symbol := "*", precedence := 2, formula := fun x y => .ok (x * y),
     retainsUnit := fun _ _ => true },
   { symbol := "/", precedence := 2, formula := quotient },
   { symbol := "%", precedence := 2, formula := remainder }]

end OperatorSymbol

end UnitCalc
