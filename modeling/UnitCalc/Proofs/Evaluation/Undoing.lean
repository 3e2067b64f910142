/-
The way back of an operator.

An operator that keeps the unit of its first operand computes in whatever that
unit normalizes to and then goes back. That way is open, in a registry of any
history, exactly if the unit it starts from leads back
(`UnitRegistry.LeadsBack`). It does not matter which number the operator came
to: the way depends on units alone (`Proofs/Unit/Routes`), so there is a way
for all results or for none.

A unit that is the base of another one and has a base of its own need not lead
back. Feet that are defined by inches are an example: inches are expressed in
points by their own converter, and points know nothing of feet
(`UnitRegistry.convert_inches_feet`).
-/
import Mathlib.Control.Monad.Basic
import UnitCalc.Evaluation.Outcome
import UnitCalc.Proofs.Evaluation.Combining
import UnitCalc.Proofs.Unit.Routes

namespace UnitCalc

namespace Environment

variable {env : Environment}

/-- A result of operands that have numbers is expressed in the unit of the
first one exactly if the unit it was computed in leads back there. -/
theorem combine_ok_iff {operator : OperatorSymbol} {leftPosition rightPosition position : Nat}
    {left right : Value} {x y z : Float} {unit unit' : String} (htotal : env.units.Total)
    (hleft : env.units.unitOf left = .ok (some unit))
    (hright : env.units.unitOf right = .ok (some unit'))
    (hx : env.units.normalize left env.canonicalUnit = .ok x)
    (hy : env.units.normalize right env.canonicalUnit = .ok y)
    (hz : operator.formula x y = .ok z) (hretains : operator.retainsUnit unit unit' = true) :
    ∃ last, env.units.normalizedUnit unit env.canonicalUnit = .ok last
      ∧ ((∃ v, env.combine operator leftPosition rightPosition position left right = .ok v)
        ↔ env.units.LeadsBack last unit) := by
  obtain ⟨number, last, hresolve⟩ := UnitRegistry.resolve_of_normalize hx hleft
  have hlast := UnitRegistry.normalizedUnit_of_resolve htotal hresolve
  refine ⟨last, hlast, ?_⟩
  rw [combine_retained hleft hright hx hy hz hretains, hlast,
    ← UnitRegistry.convert_back_iff htotal hresolve z]
  simp only [bind_eq_ok, Except.ok.injEq, exists_eq_left', pure_eq_ok]
  constructor
  · rintro ⟨_, w, hw, -⟩
    exact ⟨w, hw⟩
  · rintro ⟨w, hw⟩
    exact ⟨_, w, hw, rfl⟩

/-- What was expressed in another unit can be expressed in the first one
again, as a number of whatever size, exactly if the unit it ended up in leads
back; and so can the result of an operator whose operands have numbers. -/
theorem undone_iff (henv : env.units.Reached) :
    (∀ {x y : Float} {unit target last : String},
        env.units.resolve x unit target = .ok (y, last) →
        env.units.normalizedUnit unit target = .ok last
          ∧ ∀ z, (∃ w, env.units.convert z last unit = .ok w) ↔ env.units.LeadsBack last unit)
      ∧ ∀ {operator : OperatorSymbol} {left right : Value} {x y z : Float} {unit unit' : String}
        (leftPosition rightPosition position : Nat),
        env.units.unitOf left = .ok (some unit) → env.units.unitOf right = .ok (some unit') →
        env.units.normalize left env.canonicalUnit = .ok x →
        env.units.normalize right env.canonicalUnit = .ok y →
        operator.formula x y = .ok z → operator.retainsUnit unit unit' = true →
        ∃ last, env.units.normalizedUnit unit env.canonicalUnit = .ok last
          ∧ ((∃ v, env.combine operator leftPosition rightPosition position left right = .ok v)
            ↔ env.units.LeadsBack last unit) := by
  have htotal := henv.total
  constructor
  · intro x y unit target last h
    exact ⟨UnitRegistry.normalizedUnit_of_resolve htotal h,
      UnitRegistry.convert_back_iff htotal h⟩
  · intro operator left right x y z unit unit' leftPosition rightPosition position hleft hright hx
      hy hz hretains
    exact combine_ok_iff htotal hleft hright hx hy hz hretains

end Environment

-- ============================================================ feet and inches

/-- The usual lengths, and feet, which are defined by inches. -/
def UnitRegistry.withFeet : UnitRegistry :=
  (standard (.number defaultResolution) defaultCanonicalUnit).addConverter
    (.ofFormulas "in" "ft" (fun x => x * 12.0) (fun x => x / 12.0))

theorem UnitRegistry.withFeet_reached : withFeet.Reached :=
  .add (.standard (by decide +kernel) _) (total_ofFormulas _ _ _ _)

/-- A calculation in inches that knows feet. -/
def Calculator.inInches : Calculator :=
  .of .standard (some .withFeet) { canonicalUnit := "in" }

namespace Environment

/-- Picas become inches, and inches lead back to them: numbers of inches are
numbers of picas, and the sum of picas and inches has a value. Inches do not
lead back to feet. -/
theorem undone_iff_inInches :
    UnitRegistry.withFeet.Reached
      ∧ UnitRegistry.withFeet.resolve 12.0 "pc" "in" = .ok (2.0, "in")
      ∧ (∀ z, ∃ w, UnitRegistry.withFeet.convert z "in" "pc" = .ok w)
      ∧ UnitRegistry.withFeet.resolve 1.0 "ft" "in" = .ok (12.0, "in")
      ∧ (∀ z, ¬ ∃ w, UnitRegistry.withFeet.convert z "in" "ft" = .ok w)
      ∧ ∃ operator ∈ OperatorSymbol.standard, operator.symbol = "+"
        ∧ ∃ v, (Calculator.inInches.environment "6pc + 1in").combine operator 0 6 4
          (.text "6pc") (.text "1in") = .ok v := by
  have hpc : UnitRegistry.withFeet.resolve 12.0 "pc" "in" = .ok (2.0, "in") := by decide +kernel
  have hft : UnitRegistry.withFeet.resolve 1.0 "ft" "in" = .ok (12.0, "in") := by decide +kernel
  have hback : UnitRegistry.withFeet.LeadsBack "in" "pc" := by
    refine Or.inr (Or.inr fun c hc => ?_)
    cases hc
    exact Or.inr (Or.inr rfl)
  have hlost : ¬ UnitRegistry.withFeet.LeadsBack "in" "ft" := by
    rintro (h | h | h)
    · exact absurd h (by decide)
    · exact absurd h (by decide)
    · exact absurd (h .inch rfl) (by decide +kernel)
  obtain ⟨hconvert, hcombine⟩ :=
    @undone_iff (Calculator.inInches.environment "6pc + 1in") UnitRegistry.withFeet_reached
  obtain ⟨operator, hmem, hsymbol, hformula, hretains⟩ :
      ∃ operator ∈ OperatorSymbol.standard, operator.symbol = "+"
        ∧ (∀ x y, operator.formula x y = .ok (x + y)) ∧ operator.retainsUnit "pc" "in" = true :=
    ⟨_, List.mem_cons_self, rfl, fun _ _ => rfl, rfl⟩
  refine ⟨UnitRegistry.withFeet_reached, hpc, fun z => ((hconvert hpc).2 z).2 hback, hft,
    fun z hz => hlost (((hconvert hft).2 z).1 hz), operator, hmem, hsymbol, ?_⟩
  obtain ⟨last, hlast, hsum⟩ := hcombine 0 6 4
    (by decide +kernel : UnitRegistry.withFeet.unitOf (.text "6pc") = .ok (some "pc"))
    (by decide +kernel : UnitRegistry.withFeet.unitOf (.text "1in") = .ok (some "in"))
    (by decide +kernel : UnitRegistry.withFeet.normalize (.text "6pc") "in" = .ok 1.0)
    (by decide +kernel : UnitRegistry.withFeet.normalize (.text "1in") "in" = .ok 1.0)
    (hformula 1.0 1.0) hretains
  obtain rfl : last = "in" := Except.ok.inj (hlast.symm.trans (hconvert hpc).1)
  exact hsum.2 hback

end Environment

/-- Feet are expressed in inches and inches normalize to themselves, but no
number of inches is expressed in feet: the first converter for inches goes to
points. -/
theorem UnitRegistry.convert_inches_feet :
    withFeet.Reached ∧ withFeet.resolve 1.0 "ft" "in" = .ok (12.0, "in")
      ∧ withFeet.normalizedUnit "ft" "in" = .ok "in"
      ∧ withFeet.convert 12.0 "in" "ft" = .error (.bare (.conversion (.noRoute "in" "ft")))
      ∧ ((Calculator.inInches.demand "1ft + 1ft").run
          { journal := { draws := { dice := .lowest } } }).1
        = .error (.bare (.conversion (.noRoute "in" "ft"))) :=
  ⟨withFeet_reached, by decide +kernel⟩

end UnitCalc
