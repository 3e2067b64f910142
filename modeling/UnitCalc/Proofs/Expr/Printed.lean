/-
Expressions as text, and expressions up to their positions.

Printing puts parentheses around every operation and one blank on either side
of its operator; a call has its arguments between parentheses, with a comma and
a blank between any two; a literal is printed as its text. So no level of any
operator has a say in how the text is read again, and every word stands where
words are recognized.

# Without positions

What is printed has its own positions, so an expression that is read from it can
be the same only without them (`unplaced`). The measures of an expression and
its calls do not look at positions: to drop them is to move every node to zero
(`unplaced_eq_moved`), and moving keeps them.

`Proofs/Parsing/Printing` reads the text again; it asks that every literal is a
quantity (`OfQuantities`).
-/
import UnitCalc.Proofs.Expr.Moved
import UnitCalc.Proofs.Quantity.Spelling

namespace UnitCalc.Expr

-- ============================================================== printing

mutual

/-- An expression as text. -/
def letters : Expr → List Char
  | literal text _ => text.toList
  | binary operator left right _ =>
    '(' :: (letters left ++ ' ' :: (operator.symbol.toList ++ ' ' :: (letters right ++ [')'])))
  | call function arguments _ => function.name.toList ++ '(' :: (lettersAll arguments ++ [')'])

/-- The arguments of a call as text. -/
def lettersAll : List Expr → List Char
  | [] => []
  | [e] => letters e
  | e :: es => letters e ++ ',' :: ' ' :: lettersAll es

end

/-- An expression printed. -/
def printed (e : Expr) : String :=
  String.ofList e.letters

mutual

/-- An expression without its positions. -/
def unplaced : Expr → Expr
  | literal text _ => literal text 0
  | binary operator left right _ => binary operator (unplaced left) (unplaced right) 0
  | call function arguments _ => call function (unplacedAll arguments) 0

/-- The same of several expressions. -/
def unplacedAll : List Expr → List Expr
  | [] => []
  | e :: es => unplaced e :: unplacedAll es

end

mutual

/-- Whether every literal of an expression is a quantity. -/
def OfQuantities (units : UnitRegistry) : Expr → Prop
  | literal text _ => IsQuantity units text.toList
  | binary _ left right _ => OfQuantities units left ∧ OfQuantities units right
  | call _ arguments _ => AllOfQuantities units arguments

/-- The same of several expressions. -/
def AllOfQuantities (units : UnitRegistry) : List Expr → Prop
  | [] => True
  | e :: es => OfQuantities units e ∧ AllOfQuantities units es

end

-- ==================================================== without positions

mutual

/-- Without positions every node is at zero. -/
theorem unplaced_eq_moved (e : Expr) : e.unplaced = e.moved fun _ => 0 := by
  match e with
  | .literal _ _ => rfl
  | .binary _ left right _ =>
      rw [unplaced, unplaced_eq_moved left, unplaced_eq_moved right, moved]
  | .call _ arguments _ => rw [unplaced, unplacedAll_eq_movedAll arguments, moved]

theorem unplacedAll_eq_movedAll (es : List Expr) : unplacedAll es = movedAll (fun _ => 0) es := by
  match es with
  | [] => rfl
  | e :: es => rw [unplacedAll, unplaced_eq_moved e, unplacedAll_eq_movedAll es, movedAll]

end

theorem count_unplaced (e : Expr) : e.unplaced.count = e.count := by
  rw [unplaced_eq_moved, count_moved]

theorem depth_unplaced (e : Expr) : e.unplaced.depth = e.depth := by
  rw [unplaced_eq_moved, depth_moved]

theorem callsWithin_unplaced (limit : Int) (e : Expr) :
    e.unplaced.CallsWithin limit ↔ e.CallsWithin limit := by
  rw [unplaced_eq_moved, callsWithin_moved]

end UnitCalc.Expr
