/-
Implementations for functions that an application adds.

An implementation that needs an argument fails when the call has none; the
parameters of a function are what keeps such calls away from it. What a call
is told besides its arguments, its place and the surroundings, only
`describeContext` and `refusing` look at.
-/
import UnitCalc.Symbol.Numeric

namespace UnitCalc.Implementation

/-- The first argument. -/
def first : Implementation := fun arguments _ =>
  match arguments.head? with
  | some v => pure v
  | none => throw (.missingArgument 0)

/-- The last argument. -/
def last : Implementation := fun arguments _ =>
  match arguments.getLast? with
  | some v => pure v
  | none => throw (.missingArgument 0)

/-- The same value for every call. -/
def constant (v : Value) : Implementation := fun _ _ => pure v

/-- The number of arguments. -/
def count : Implementation := fun arguments _ => do
  Numeric.ofInt arguments.length

/-- The texts of the arguments with a separator between them. -/
def join (separator : String) : Implementation := fun arguments _ =>
  pure (.text (String.intercalate separator (arguments.map Value.shown)))

/-- The text of the first argument with another behind it. -/
def suffix (s : String) : Implementation := fun arguments context => do
  let v ← first arguments context
  return .text (v.shown ++ s)

/-- The mean of the arguments, shifted; of no arguments the shift alone. -/
def shiftedMean (shift : Float) : Implementation := fun arguments _ => do
  if arguments.isEmpty then return .number shift
  let numbers ← (arguments.mapM Value.toFloat : Except Fault (List Float))
  let total := numbers.foldl (· + ·) 0.0
  return .number (total / Binary.nearest false arguments.length 1 + shift)

/-- Twice the first argument. -/
def double : Implementation := fun arguments context => do
  let v ← first arguments context
  let x ← v.toFloat
  return .number (x * 2.0)

/-- The implementation of a built-in function. -/
def builtin (name : String) : Implementation := fun arguments context =>
  match Numeric.functions.find? fun f => f.name == name with
  | some f => f.implementation arguments context
  | none => throw (.unknownSymbol name)

/-- What the call was told: its position, its source, the limits and the
units. -/
def describeContext : Implementation := fun _ context =>
  let limits := String.intercalate "," (context.limits.values.map toString)
  let units := String.intercalate "," context.units.units
  pure (.text (String.intercalate ";" [toString context.position, context.source, limits, units]))

/-- Refuses every call, in the name of a function. -/
def refusing (name message : String) : Implementation := fun _ context =>
  throw (.of (.builtin name (.stated message)) (some context.position) (some context.source))

/-- Fails on every call. -/
def failing (message : String) : Implementation := fun _ _ =>
  throw (.application message)

end UnitCalc.Implementation
