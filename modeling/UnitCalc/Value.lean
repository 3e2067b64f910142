/-
The values that expressions pass around: text, which may be a number with a
unit behind it, and floats. Functions that an application brings along may
also answer whole numbers, truth values and nothing at all.

A quantity stays a text from one operator to the next; it is split where it
is needed (`Value.split?`) and written again when a result keeps its unit.
-/
import UnitCalc.Decimal.Layout

namespace UnitCalc

/-- A value of an expression, or an argument of a function. -/
inductive Value where
  | text (s : String)
  | number (x : Float)
  | integer (n : Int)
  | truth (b : Bool)
  | null
  deriving DecidableEq, Repr

namespace Value

/-- A float as it is shown. -/
def ofFloatText (x : Float) : String :=
  String.ofList (Layout.standard.floatText x)

/-- A value as it is shown in messages and joined texts; text is shown as it
is. -/
def shown : Value → String
  | text s => s
  | number x => ofFloatText x
  | integer n => toString n
  | truth true => "True"
  | truth false => "False"
  | null => "None"

end Value

end UnitCalc
