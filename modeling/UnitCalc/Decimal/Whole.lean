/-
Whole numbers in the texts of settings.

A whole number has one form, `canonical?`: ASCII digits without a leading
zero, and perhaps a minus. Other spellings are brought into it first
(`normalForm?`): spacing around the number, a plus, leading zeros, underscores
between digits and a fraction of zeros are taken away. The one form is tried
before the others, since what it refuses as a whole may still be one of them.

A number may be long, but not without end. A text that begins with too long
a number is told apart from one that is no number
(`readWhole_tooLong_iff`), and this is decided before anything is read: a
text that begins so is too long whatever follows.
-/
import UnitCalc.Decimal.Written

namespace UnitCalc.Decimal

open Text

/-- Why a text is not read as a whole number. -/
inductive WholeIssue where
  | tooLong
  | unreadable
  deriving DecidableEq, Repr

-- ================================================== the one form

/-- How many digits a whole number has at most. -/
def mostDigits : Nat := 4300

/-- Takes off a minus, and tells whether there was one. -/
def takeMinus : List Char → Bool × List Char
  | '-' :: rest => (true, rest)
  | rest => (false, rest)

/-- Whether a text begins with a number that has too many digits; a number
of more than one digit does not begin with zero. -/
def beginsTooLong (cs : List Char) : Bool :=
  let digits := (takeMinus cs).2.takeWhile isAsciiDigit
  digits.head? != some '0' && mostDigits < digits.length

/-- Reads a whole number in its one form. -/
def canonical? (cs : List Char) : Option Int :=
  let (negative, digits) := takeMinus cs
  if digits.isEmpty || !digits.all isAsciiDigit then none
  else if digits.head? = some '0' ∧ 1 < digits.length then none
  else if mostDigits < digits.length then none
  else
    let n : Int := digitsValue digits
    some (if negative then -n else n)

-- ================================================ other spellings

/-- Drops the zeros and underscores that lead a number, up to another digit
or a minus behind them; one zero is kept before a point. The last character
is kept when there is nothing else. -/
def dropLeadingZeros? (previous : Char) : List Char → Option (List Char)
  | [] => some [previous]
  | '.' :: rest => some (previous :: '.' :: rest)
  | c :: rest =>
    if c = '0' ∨ c = '_' then dropLeadingZeros? c rest
    else if isAsciiDigit c ∨ c = '-' then some (c :: rest)
    else none

/-- Drops the zeros that lead a number without a sign, which begins with a
digit. -/
def significant? : List Char → Option (List Char)
  | '0' :: rest => dropLeadingZeros? '0' rest
  | c :: rest => if isAsciiDigit c then some (c :: rest) else none
  | [] => none

/-- Drops a fraction of zeros, at least one of them. -/
def dropZeroFraction (cs : List Char) : List Char :=
  match cs.dropWhile (· != '.') with
  | '.' :: zero :: zeros =>
    if (zero :: zeros).all (· == '0') then cs.takeWhile (· != '.') else cs
  | _ => cs

/-- The one form of a number without spacing around it, if it is spelled in
another. A sign is a single plus or minus in front. -/
def normalForm? (cs : List Char) : Option (List Char) :=
  let (negative, unsigned) := Numeral.takeSign cs
  (significant? unsigned).map fun digits =>
    let whole := dropZeroFraction digits
    (if negative then ['-'] else []) ++ (dropUnderscores? whole).getD whole

-- ======================================================== reading

/-- Reads the whole number of a setting. -/
def readWhole (cs : List Char) : Except WholeIssue Int :=
  if beginsTooLong cs then .error .tooLong
  else
    match canonical? cs with
    | some n => .ok n
    | none =>
      match (normalForm? (trimBy isSpacing cs)).bind canonical? with
      | some n => .ok n
      | none => .error .unreadable

/-- Only what a text begins with makes it too long. -/
theorem readWhole_tooLong_iff {cs : List Char} :
    readWhole cs = .error .tooLong ↔ beginsTooLong cs = true := by
  unfold readWhole
  by_cases h : beginsTooLong cs = true
  · simp [h]
  · simp only [h]
    cases canonical? cs with
    | some n => simp
    | none => cases (normalForm? (trimBy isSpacing cs)).bind canonical? <;> simp

end UnitCalc.Decimal
