/-
Registries of units, which tell the units among the suffixes of quantities
and convert between them.

A conversion goes through the base unit of the first converter registered for
the unit it starts from, then through the converter from that base to the
target. Plain numbers adopt any target. At most two formulas are applied; there
is no search for longer routes, and a unit that is a base of some and a unit
of other converters is converted by the first of these.

When there is a way back at all is said in `Proofs/Unit/Routes`
(`convert_back_iff`). In a registry without such surprises there always is one
(`Proofs/Unit/Return`), and neither the order of registration nor the path
matters (`Proofs/Unit/Flat`).
-/
import UnitCalc.Unit.Converter
import UnitCalc.Text.Label

namespace UnitCalc

/-- The converters that are known, and the unit that values are expressed in
when no other is asked for. -/
structure UnitRegistry where
  converters : Registry Converter := Registry.empty
  canonicalUnit : String := "pt"

namespace UnitRegistry

/-- The unit that values are expressed in unless told otherwise. -/
def defaultCanonicalUnit : String := "pt"

/-- The usual number of pixels in an inch. -/
def defaultResolution : Float := 96.0

/-- The registry of the usual lengths and the percentage. -/
def standard (resolution : Value) (canonicalUnit : String) : UnitRegistry where
  converters := Registry.ofList
    [.centimeter, .inch, .millimeter, .percentage, .pica "pc", .pica "pica", .pixel resolution]
  canonicalUnit := canonicalUnit

-- =================================================== registration

/-- Adds a converter, in the place of one for the same pair of units. -/
def addConverter (r : UnitRegistry) (c : Converter) : UnitRegistry :=
  { r with converters := r.converters.add c }

/-- Removes the converter for a pair of units. -/
def removeConverter (r : UnitRegistry) (base unit : String) : UnitRegistry :=
  { r with converters := r.converters.remove (base, unit) }

-- ===================================================== inspection

/-- The labels that converters name, with repetitions. -/
def labels (r : UnitRegistry) : List String :=
  r.converters.entries.flatMap fun c => [c.base, c.unit]

/-- Every label of a unit, longest first. -/
def units (r : UnitRegistry) : List String :=
  Text.sortLabels (r.labels.filter (· != dimensionless))

/-- Whether a label is that of a unit. -/
def isUnit (r : UnitRegistry) (label : String) : Bool :=
  label != dimensionless && r.labels.contains label

/-- The units are the labels that are listed as such. -/
theorem isUnit_iff_mem_units {r : UnitRegistry} {label : String} :
    r.isUnit label = true ↔ label ∈ r.units := by
  rw [units, Text.mem_sortLabels, List.mem_filter, isUnit, Bool.and_eq_true,
    List.contains_iff_mem, and_comm]

/-- The unit a value carries, if its suffix is one. -/
def unitOf (r : UnitRegistry) (v : Value) : Except Fault (Option String) :=
  v.split?.map fun quantity? =>
    quantity?.bind fun quantity =>
      if r.isUnit quantity.suffix then some quantity.suffix else none

/-- One for a value with a unit, zero for any other. -/
def unitPower (r : UnitRegistry) (v : Value) : Except Fault Nat :=
  (r.unitOf v).map fun unit? => if unit?.isSome then 1 else 0

-- ===================================================== conversion

/-- The first converter for a unit. -/
def converterFor? (r : UnitRegistry) (unit : String) : Option Converter :=
  r.converters.entries.find? fun c => c.unit == unit

/-- Whether a label is the base of some converter. -/
def isBase (r : UnitRegistry) (label : String) : Bool :=
  r.converters.entries.any fun c => c.base == label

/-- A number in the base unit of its unit, and that base. -/
def toBase (r : UnitRegistry) (x : Float) (unit : String) : Except Fault (Float × String) :=
  if unit = dimensionless then .ok (x, dimensionless)
  else
    match r.converterFor? unit with
    | some c => (c.toBase x).map fun y => (y, c.base)
    | none =>
      if r.isBase unit then .ok (x, unit)
      else .error (.bare (.conversion (.unknownUnit unit .null)))

/-- Expresses a number in another unit and tells the unit it ends up in,
which is the target unless a plain number stays plain. -/
def resolve (r : UnitRegistry) (x : Float) (unit target : String) :
    Except Fault (Float × String) :=
  if unit = target then .ok (x, target)
  else do
    let (y, base) ← r.toBase x unit
    if base = target then return (y, target)
    match r.converters.get? (base, target) with
    | some c => (c.fromBase y).map fun z => (z, target)
    | none =>
      if base = dimensionless then return (y, dimensionless)
      throw (.bare (.conversion (.noRoute unit target)))

/-- Expresses a number in another unit. -/
def convert (r : UnitRegistry) (x : Float) (unit target : String) : Except Fault Float :=
  (r.resolve x unit target).map Prod.fst

/-- The unit that values of a unit end up in. -/
def normalizedUnit (r : UnitRegistry) (unit target : String) : Except Fault String :=
  (r.resolve 1.0 unit target).map Prod.snd

/-- The number of a value in a unit. -/
def normalize (r : UnitRegistry) (v : Value) (target : String) : Except Fault Float := do
  match ← v.split? with
  | none => throw (.bare (.conversion (.notNumeric v)))
  | some quantity =>
    if quantity.suffix != dimensionless && !r.isUnit quantity.suffix then
      throw (.bare (.conversion (.unknownUnit quantity.suffix v)))
    r.convert quantity.number quantity.suffix target

end UnitRegistry

end UnitCalc
