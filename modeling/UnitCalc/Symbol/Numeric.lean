/-
The built-in functions.

All take plain finite numbers, and all but `rand` answer the same on the same
numbers. Arguments are read from the first to the last, so the first bad one
is the one reported. A function is refused in its own name, and the caller
adds the place.

Whole numbers are computed as such and turned into floats at the end, so
`floor`, `ceil` and the draws of `rand` are exact. `round` computes on floats
throughout, which shows at the edges (`Proofs/Symbol/Rounding`), and the
bounds of `rand` are cut before they are looked at, which shows as well
(`Proofs/Symbol/Random`).
-/
import UnitCalc.Symbol.Function
import UnitCalc.Value.Number

namespace UnitCalc.Numeric

/-- An error of a built-in function, which does not know its place. -/
def refuse (function : String) (issue : BuiltinIssue) : Fault :=
  .bare (.builtin function issue)

/-- The number of an argument. -/
def ofValue (function : String) (index : Nat) (value : Value) : Except Fault Float :=
  match value.toFloat with
  | .ok x => if Binary.isFinite x then .ok x else .error (refuse function (.notFinite index value))
  | .error (.unreadableNumber _) => .error (refuse function (.notANumber index value))
  | .error fault => .error fault

/-- The number of the argument at an index, which must be there. -/
def argument (function : String) (arguments : List Value) (index : Nat) : Except Fault Float :=
  match arguments[index]? with
  | none => .error (refuse function (.missingArgument index))
  | some value => ofValue function index value

/-- The whole part of the argument at an index. -/
def wholeArgument (function : String) (arguments : List Value) (index : Nat) :
    Except Fault Int := do
  let x ← argument function arguments index
  return (Binary.ofFloat x).truncate?.getD 0

/-- A whole number as a value. -/
def ofInt (n : Int) : Except Fault Value :=
  match Binary.ofInt? n with
  | some x => .ok (.number x)
  | none => .error .beyondFloatRange

/-- A fraction of whole numbers as a value. -/
def ofQuotient (n : Int) (d : Nat) : Except Fault Value :=
  match Binary.ofQuotient? n d with
  | some x => .ok (.number x)
  | none => .error .beyondFloatRange

-- ======================================================= randomness

/-- Into how many steps a random fraction divides one. -/
def steps : Nat := 100000

/-- Without arguments a fraction between zero and one; with one argument a
fraction between zero and it; with two a whole number between them. Bounds
are cut to whole numbers. -/
def rand (arguments : List Value) : Drawing Value := do
  if arguments.isEmpty then
    let n ← draw 0 steps
    ofQuotient n steps
  else
    let first ← wholeArgument "rand" arguments 0
    if arguments.length = 1 then
      if first < 0 then throw (refuse "rand" (.negativeBound first))
      let n ← draw 0 (first * steps)
      ofQuotient n steps
    else
      let second ← wholeArgument "rand" arguments 1
      if second < first then throw (refuse "rand" (.emptyRange first second))
      let n ← draw first second
      ofInt n

-- ========================================================= rounding

/-- The magnitude. -/
def abs (arguments : List Value) : Except Fault Value := do
  let x ← argument "abs" arguments 0
  return .number x.abs

/-- The greatest whole number that is not above. -/
def floor (arguments : List Value) : Except Fault Value := do
  let x ← argument "floor" arguments 0
  ofInt ((Binary.ofFloat x).floor?.getD 0)

/-- The least whole number that is not below. -/
def ceil (arguments : List Value) : Except Fault Value := do
  let x ← argument "ceil" arguments 0
  ofInt ((Binary.ofFloat x).ceiling?.getD 0)

/-- A float rounded to so many decimal places, halves away from zero; a
negative count rounds to tens, hundreds and so on. The magnitude is scaled
by a power of ten, a half is added, and the whole part is scaled back. A
number that is too fine for its scale stays as it is, and a scale of zero
leaves nothing. -/
def roundTo (x : Float) (places : Int) : Float :=
  match Binary.tenPower? places with
  | none => x
  | some scale =>
    let scaled := x.abs * scale
    if !Binary.isFinite scaled then x
    else if scale == 0.0 then Binary.withSignOf 0.0 x
    else
      let whole := (Binary.ofFloat (scaled + 0.5)).floor?.getD 0
      Binary.withSignOf (Binary.nearest false whole.natAbs 1 / scale) x

/-- Rounds to a whole number, or to the decimal places of the second
argument. -/
def round (arguments : List Value) : Except Fault Value := do
  let x ← argument "round" arguments 0
  let places ←
    if arguments.length ≤ 1 then pure 0 else wholeArgument "round" arguments 1
  return .number (roundTo x places)

-- ======================================================= comparison

/-- The numbers of all arguments. -/
def all (function : String) (arguments : List Value) : Except Fault (List Float) :=
  arguments.zipIdx.mapM fun (value, index) => ofValue function index value

/-- The number that no other goes before; of equal ones the first. -/
def select (function : String) (before : Float → Float → Bool) (arguments : List Value) :
    Except Fault Value := do
  match ← all function arguments with
  | [] => throw (.nothingToCompare function)
  | x :: xs => return .number (xs.foldl (fun best y => if before y best then y else best) x)

/-- The least number. -/
def min (arguments : List Value) : Except Fault Value :=
  select "min" (fun x y => x < y) arguments

/-- The greatest number. -/
def max (arguments : List Value) : Except Fault Value :=
  select "max" (fun x y => y < x) arguments

-- ======================================================== the symbols

/-- A function that draws nothing and does not look at its call. -/
def deterministic (f : List Value → Except Fault Value) : Implementation :=
  fun arguments _ => f arguments

/-- One required number and up to seven more. -/
def several : List Parameter :=
  {} :: List.replicate 7 { mode := .optional }

/-- The built-in functions. -/
def functions : List FunctionSymbol :=
  [{ name := "rand", implementation := fun arguments _ => rand arguments,
     parameters := [{ mode := .optional }, { mode := .optional }] },
   { name := "abs", implementation := deterministic abs, parameters := [{}] },
   { name := "floor", implementation := deterministic floor, parameters := [{}] },
   { name := "ceil", implementation := deterministic ceil, parameters := [{}] },
   { name := "round", implementation := deterministic round,
     parameters := [{}, { mode := .optional }] },
   { name := "min", implementation := deterministic min, parameters := several },
   { name := "max", implementation := deterministic max, parameters := several }]

end UnitCalc.Numeric
