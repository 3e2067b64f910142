/-
Settings of a calculation: the unit results are normalized to, the resolution
of pixels, and the limits.

The resolution and the canonical unit are all that the standard unit registry
is made from, so settings bring their registry along (`Config.units`); an
application may still put its own in its place (`Calculator.of`).
-/
import UnitCalc.Limits
import UnitCalc.Unit.Registry

namespace UnitCalc

/-- The settings of a calculation. -/
structure Config where
  canonicalUnit : String := UnitRegistry.defaultCanonicalUnit
  resolution : Float := UnitRegistry.defaultResolution
  limits : Limits := Limits.standard

/-- The unit registry that goes with settings. -/
def Config.units (config : Config) : UnitRegistry :=
  .standard (.number config.resolution) config.canonicalUnit

end UnitCalc
