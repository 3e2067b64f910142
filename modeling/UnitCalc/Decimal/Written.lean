/-
Numbers that stand alone in a text.

Two forms are read: the free one, in which spacing may surround the number
and single underscores may part its digits, and the strict one of settings,
in which digits are ASCII. Both know the names of infinity and of no number,
in any case, and both try the numeral before the names; a name has no digit
in it, so the order does not show.

The free form is what functions read their arguments with (`Value/Number`).
It trims spacing, which is less than what counts as blank elsewhere, and so
it refuses some texts that are accepted as numbers: `Proofs/Symbol/Reading`
says which.
-/
import UnitCalc.Decimal.Numeral
import UnitCalc.Text.Blank

namespace UnitCalc.Decimal

open Text

-- ===================================================== the names

/-- A text without the case of its ASCII letters. -/
def lowerCase (cs : List Char) : List Char :=
  cs.map Char.toLower

/-- The float that has a name instead of digits. -/
def named? (cs : List Char) : Option Float :=
  let (negative, name) := Numeral.takeSign cs
  let name := lowerCase name
  if name = "inf".toList ∨ name = "infinity".toList then some (Binary.infinity negative)
  else if name = "nan".toList then some (0.0 / 0.0)
  else none

/-- A numeral that is the whole text. -/
def numeral? (cs : List Char) : Option Numeral :=
  match Numeral.longest? cs with
  | some (numeral, []) => some numeral
  | _ => none

/-- A numeral or a name that is the whole text. -/
def plain? (cs : List Char) : Option Float :=
  match numeral? cs with
  | some numeral => some numeral.toFloat
  | none => named? cs

-- =================================================== underscores

/-- Removes the underscores of a text, each of which must stand between two
digits. The flag says whether the character before is a digit. -/
def joinDigits? (afterDigit : Bool) : List Char → Option (List Char)
  | [] => some []
  | '_' :: rest =>
    match rest with
    | next :: _ => if afterDigit && isDigit next then joinDigits? false rest else none
    | [] => none
  | c :: rest => (joinDigits? (isDigit c) rest).map (c :: ·)

/-- Reads a number in the free form. -/
def read? (cs : List Char) : Option Float :=
  (joinDigits? false (trimBy isSpacing cs)).bind plain?

-- ============================================== the strict form

/-- Whether two underscores stand side by side. -/
def hasDoubled : List Char → Bool
  | '_' :: '_' :: _ => true
  | _ :: rest => hasDoubled rest
  | [] => false

/-- Removes single underscores that are not at an end of the text; a text
without any is left out. -/
def dropUnderscores? (cs : List Char) : Option (List Char) :=
  if cs.head? = some '_' ∨ cs.getLast? = some '_' ∨ hasDoubled cs ∨ !cs.contains '_' then none
  else some (cs.filter (· != '_'))

/-- A number of the strict form: ASCII throughout. -/
def plainAscii? (cs : List Char) : Option Float :=
  if cs.all fun c => c.toNat < 0x80 then plain? cs else none

/-- Reads a number in the strict form. -/
def readStrict? (cs : List Char) : Option Float :=
  match plainAscii? (trimBy isSpacing cs) with
  | some x => some x
  | none => (dropUnderscores? cs).bind plainAscii?

end UnitCalc.Decimal
