/-
Quantities: a number with a suffix, such as `3cm`.

`Quantity.read?` splits a text into its longest numeral and what stands behind
it, both trimmed of blanks; `Quantity.written` is the inverse form, in which
whole numbers show no fraction. Which suffixes are units is not decided here:
the text `3 apples` is a quantity with a suffix that no registry knows.

The split is exact for the grammar of numerals
(`Proofs/Quantity/Splitting`), and what is written with a readable label is
read again as the same float (`Proofs/Quantity/Returned`). Infinities and no
number are written by their names, which are no numerals; what follows from
this for results with a unit is in `Proofs/Evaluation/Overflow`.
-/
import UnitCalc.Decimal.Numeral
import UnitCalc.Text.Blank
import UnitCalc.Error.Fault

namespace UnitCalc

/-- A number and the suffix behind it. -/
structure Quantity where
  number : Float
  suffix : String
  deriving DecidableEq, Repr

namespace Quantity

open Text

/-- The longest numeral of a text and its trimmed suffix. A suffix lies on
one line; a text that does not start with a numeral has none. -/
def split? (cs : List Char) : Option (Numeral × List Char) :=
  match Numeral.longest? (trimStart cs) with
  | none => none
  | some (numeral, rest) =>
    let suffix := trim rest
    if suffix.contains '\n' then none else some (numeral, suffix)

/-- Reads a text as a quantity. -/
def read? (cs : List Char) : Option Quantity :=
  (split? cs).map fun (numeral, suffix) => ⟨numeral.toFloat, String.ofList suffix⟩

/-- Whether a text is a number and nothing else. -/
def isNumberText (cs : List Char) : Bool :=
  match split? cs with
  | some (_, []) => true
  | _ => false

/-- A text is a number when it is a quantity without a suffix. -/
theorem isNumberText_eq (cs : List Char) :
    isNumberText cs = (read? cs).any fun q => q.suffix == "" := by
  unfold isNumberText read?
  generalize split? cs = parts
  rcases parts with _ | ⟨numeral, _ | ⟨c, suffix⟩⟩
  · rfl
  · simp
  · simp

/-- A number in a unit as text: whole numbers with all their digits and no
point, others in the standard layout. -/
def written (x : Float) (unit : String) : String :=
  let digits := match Binary.ofFloat x with
    | .finite negative quanta =>
      if quanta % Binary.unit = 0 then
        let whole : Int := (quanta / Binary.unit : Nat)
        toString (if negative then -whole else whole)
      else Value.ofFloatText x
    | _ => Value.ofFloatText x
  digits ++ unit

end Quantity

namespace Value

/-- The number and the suffix of a value; texts that are no quantity and
truth values have none. -/
def split? : Value → Except Fault (Option Quantity)
  | text s => .ok (Quantity.read? s.toList)
  | number x => .ok (some ⟨x, ""⟩)
  | integer n =>
    match Binary.ofInt? n with
    | some x => .ok (some ⟨x, ""⟩)
    | none => .error .beyondFloatRange
  | truth _ => .ok none
  | null => .error (.noNumber null)

/-- Whether a value is a plain number. Texts are judged by their letters
alone; the number itself is not computed. -/
def isNumeric : Value → Except Fault Bool
  | text s => .ok (Quantity.isNumberText s.toList)
  | number _ => .ok true
  | integer n => if (Binary.ofInt? n).isSome then .ok true else .error .beyondFloatRange
  | truth _ => .ok false
  | null => .error (.noNumber null)

/-- A value is a plain number exactly when it splits into a number and no
suffix. -/
theorem isNumeric_eq (v : Value) :
    v.isNumeric = v.split?.map fun quantity? => quantity?.any fun q => q.suffix == "" := by
  cases v with
  | text s => simp only [isNumeric, split?, Quantity.isNumberText_eq, Except.map]
  | number x => simp [isNumeric, split?, Except.map]
  | integer n =>
    simp only [isNumeric, split?]
    cases Binary.ofInt? n <;> simp [Except.map]
  | truth b => simp [isNumeric, split?, Except.map]
  | null => simp [isNumeric, split?, Except.map]

end Value

end UnitCalc
