/-
Conversion formulas given as steps of arithmetic, for converters that an
application adds. Only a division by zero fails; every other step answers a
float, be it an infinity.
-/
import UnitCalc.Unit.Converter

namespace UnitCalc

/-- A step of a conversion formula. -/
inductive ConversionStep where
  | multiply (x : Float)
  | divide (x : Float)
  | add (x : Float)
  | subtract (x : Float)
  deriving DecidableEq, Repr

namespace ConversionStep

/-- Takes one step. -/
def apply (y : Float) : ConversionStep → Except Fault Float
  | multiply x => .ok (y * x)
  | divide x => if x == 0.0 then .error .zeroDivision else .ok (y / x)
  | add x => .ok (y + x)
  | subtract x => .ok (y - x)

/-- Takes steps one after the other. -/
def applyAll (steps : List ConversionStep) (y : Float) : Except Fault Float :=
  steps.foldlM apply y

end ConversionStep

/-- A converter whose formulas are steps of arithmetic. -/
def Converter.ofSteps (base unit : String) (toBase fromBase : List ConversionStep) :
    Converter where
  base := base
  unit := unit
  toBase := ConversionStep.applyAll toBase
  fromBase := ConversionStep.applyAll fromBase

end UnitCalc
