/-
The number of a value as a function takes it: texts are read in the free
form, as a whole, so a suffix makes them unreadable; truth values count one
and zero.

This is not the number that operators take, which is that of the quantity
(`Value.split?`); on texts that are accepted as plain numbers the two agree
but for a few blanks (`Proofs/Symbol/Reading`).
-/
import UnitCalc.Decimal.Written
import UnitCalc.Error.Fault

namespace UnitCalc.Value

/-- The number of a value. -/
def toFloat : Value → Except Fault Float
  | text s =>
    match Decimal.read? s.toList with
    | some x => .ok x
    | none => .error (.unreadableNumber (text s))
  | number x => .ok x
  | integer n =>
    match Binary.ofInt? n with
    | some x => .ok x
    | none => .error .beyondFloatRange
  | truth b => .ok (if b then 1.0 else 0.0)
  | null => .error (.noNumber null)

end UnitCalc.Value
