/-
Formulas and retention rules for operators that an application adds. A
formula gets both numbers in the canonical unit; a rule gets the units of
both operands and says whether the result is expressed in the first.
-/
import UnitCalc.Symbol.Operator

namespace UnitCalc

namespace Formula

/-- The sum. -/
def sum : Formula := fun x y => .ok (x + y)

/-- The difference. -/
def difference : Formula := fun x y => .ok (x - y)

/-- The product. -/
def product : Formula := fun x y => .ok (x * y)

/-- The left operand. -/
def left : Formula := fun x _ => .ok x

/-- The right operand. -/
def right : Formula := fun _ y => .ok y

/-- The left operand, scaled, plus the right one; its value tells the order
of the operands apart. -/
def affine (scale : Float) : Formula := fun x y => .ok (x * scale + y)

/-- The middle of both operands. -/
def midpoint : Formula := fun x y => .ok ((x + y) / 2.0)

/-- A formula that always divides by zero, and says so. -/
def zeroDivision (message : String) : Formula := fun _ _ => .error (.zeroDivision message)

end Formula

namespace Retention

/-- Every result keeps the unit. -/
def always : Retention := fun _ _ => true

/-- No result keeps the unit. -/
def never : Retention := fun _ _ => false

/-- Results of equal units keep theirs. -/
def sameUnit : Retention := fun u v => u == v

/-- Results of different units keep the first. -/
def differentUnits : Retention := fun u v => u != v

end Retention

end UnitCalc
