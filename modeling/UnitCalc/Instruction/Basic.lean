/-
Instructions in postfix order: values are followed by the operators and
calls that take them, and a call says how many arguments it takes. With that
number no parentheses are needed, and a list of instructions is read from the
left with one stack (`Expr/Build`).
-/
namespace UnitCalc

/-- One step of a postfix program, with its position in the source. -/
inductive Instruction where
  | value (text : String) (position : Nat)
  | operator (symbol : String) (position : Nat)
  | call (name : String) (position count : Nat)
  deriving DecidableEq, Repr

namespace Instruction

/-- An instruction as it is written in a postfix text. -/
def text : Instruction → String
  | value text _ => text
  | operator symbol _ => symbol
  | call name _ count => s!"{name}:{count}"

/-- A list of instructions as a postfix text. -/
def postfixText (instructions : List Instruction) : String :=
  String.intercalate " " (instructions.map text)

end Instruction

end UnitCalc
