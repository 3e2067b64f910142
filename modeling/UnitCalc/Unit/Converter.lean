/-
Converters between a unit and the base unit it is defined by, and the ones
every registry starts with.

The unit without a name is that of plain numbers; the percentage is a scale of
it. The two formulas of a converter are given apart and nothing makes one the
inverse of the other, so what rests on that is a hypothesis where it is used
(`Proofs/Unit/Flat`). The resolution of pixels may be any value: one that is
no number fails when a length in pixels is converted, and not before.
-/
import UnitCalc.Registry
import UnitCalc.Quantity

namespace UnitCalc

/-- Converts between a unit and its base unit. -/
structure Converter where
  base : String
  unit : String
  toBase : Float → Except Fault Float
  fromBase : Float → Except Fault Float

/-- Converters are registered under their pair of units. -/
instance : Keyed Converter (String × String) where
  key c := (c.base, c.unit)

/-- The unit of plain numbers. -/
def dimensionless : String := ""

namespace Converter

/-- A converter whose formulas are defined everywhere. -/
def ofFormulas (base unit : String) (toBase fromBase : Float → Float) : Converter where
  base := base
  unit := unit
  toBase x := .ok (toBase x)
  fromBase x := .ok (fromBase x)

-- ===================================================== lengths

/-- A centimeter is ten millimeters. -/
def centimeter : Converter :=
  ofFormulas "pt" "cm" (fun x => x * (72.0 / 25.4) * 10.0) (fun x => x * (25.4 / 72.0) / 10.0)

/-- An inch is 72 points. -/
def inch : Converter :=
  ofFormulas "pt" "in" (fun x => x * 72.0) (fun x => x / 72.0)

/-- There are 25.4 millimeters in an inch. -/
def millimeter : Converter :=
  ofFormulas "pt" "mm" (fun x => x * (72.0 / 25.4)) (fun x => x * (25.4 / 72.0))

/-- A pica is 12 points; it goes by two labels. -/
def pica (label : String) : Converter :=
  ofFormulas "pt" label (fun x => x * 12.0) (fun x => x / 12.0)

/-- How a fraction of two numbers can fail to have a float. -/
def ratio (numerator : Nat) : Value → Except Fault Float
  | .number x => if x == 0.0 then .error .zeroDivision else .ok (Float.ofNat numerator / x)
  | .integer n =>
    if n = 0 then .error .zeroDivision
    else .ok (Binary.nearest (decide (n < 0)) numerator n.natAbs)
  | .truth b => if b then .ok (Float.ofNat numerator) else .error .zeroDivision
  | v => .error (.noNumber v)

/-- The fraction the other way round. -/
def inverseRatio (denominator : Nat) : Value → Except Fault Float
  | .number x => .ok (x / Float.ofNat denominator)
  | .integer n =>
    match Binary.ofQuotient? n denominator with
    | some x => .ok x
    | none => .error .beyondFloatRange
  | .truth b => .ok ((if b then 1.0 else 0.0) / Float.ofNat denominator)
  | v => .error (.noNumber v)

/-- There are as many pixels in an inch as the resolution says, which may
be any value; one that is no number fails when it is used. -/
def pixel (resolution : Value) : Converter where
  base := "pt"
  unit := "px"
  toBase x := do
    let size ← ratio 72 resolution
    return x * size
  fromBase x := do
    let count ← inverseRatio 72 resolution
    return x * count

-- ====================================================== scales

/-- A percentage is a hundredth of a plain number. -/
def percentage : Converter :=
  ofFormulas dimensionless "%" (fun x => x / 100.0) (fun x => x * 100.0)

end Converter

end UnitCalc
