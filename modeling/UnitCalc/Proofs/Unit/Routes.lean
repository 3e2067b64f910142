/-
Where conversions lead, in whatever registry.

A conversion takes a number to a base (`UnitRegistry.baseOf?`) and the number
of the base on to the target (`UnitRegistry.Lands`); neither the base nor the
unit at the end depends on the number. Where the formulas are defined
everywhere, the unit at the end leads back to the first one for all numbers or
for none (`UnitRegistry.convert_back_iff`).

# Why there may be no way back

The converter that is met first on the way back need not be the one that was
taken on the way there. A label can be the base of one converter and the unit
of another; numbers that ended up in it then go on to a base of their own,
from which no converter may lead to where they came from. So the condition
(`LeadsBack`) looks at the first converter for the unit at the end, and only
where there is none is the way back sure: such a unit is the base of the first
one, and the converter that made it so leads back (`baseOf_of_unserved`).

# Histories

The condition is stated for registries that come of the usual one by additions
and removals (`Reached`), since these are the ones an application can have.
Additions replace converters in their place, and an induction over the history
keeps all formulas defined everywhere, which is all that is needed of them.

`Proofs/Evaluation/Undoing` puts this under an operator that retains the unit
of its first operand.
-/
import UnitCalc.Proofs.Unit.Return

namespace UnitCalc

namespace UnitRegistry

variable {r : UnitRegistry} {x y z b : Float} {unit target base last : String}

-- ==================================================================== bases

/-- The base that the numbers of a unit go through, if they have one. -/
def baseOf? (r : UnitRegistry) (unit : String) : Option String :=
  if unit = dimensionless then some dimensionless
  else
    match r.converterFor? unit with
    | some c => some c.base
    | none => if r.isBase unit then some unit else none

theorem baseOf_of_toBase (h : r.toBase x unit = .ok (y, base)) : r.baseOf? unit = some base := by
  unfold toBase at h
  unfold baseOf?
  split at h
  · next hplain =>
      cases h
      rw [if_pos hplain]
  · next hnamed =>
      rw [if_neg hnamed]
      cases hc : r.converterFor? unit with
      | some c =>
          rw [hc] at h
          obtain ⟨_, -, heq⟩ := map_eq_ok.1 h
          cases heq
          rfl
      | none =>
          rw [hc] at h
          dsimp only at h ⊢
          split at h
          · next hbase =>
              cases h
              exact if_pos hbase
          · cases h

theorem Total.toBase_of_baseOf (htotal : r.Total) (h : r.baseOf? unit = some base) (x : Float) :
    ∃ y, r.toBase x unit = .ok (y, base) := by
  unfold baseOf? at h
  unfold toBase
  split at h
  · next hplain =>
      cases h
      exact ⟨x, if_pos hplain⟩
  · next hnamed =>
      rw [if_neg hnamed]
      cases hc : r.converterFor? unit with
      | some c =>
          rw [hc] at h
          cases h
          obtain ⟨y, hy⟩ := (htotal c (List.mem_of_find?_eq_some hc)).1 x
          exact ⟨y, map_eq_ok.2 ⟨y, hy, rfl⟩⟩
      | none =>
          rw [hc] at h
          dsimp only at h ⊢
          split at h
          · next hbase =>
              cases h
              exact ⟨x, if_pos hbase⟩
          · cases h

theorem converterFor_unit {c : Converter} (h : r.converterFor? unit = some c) : c.unit = unit := by
  unfold converterFor? at h
  simpa using List.find?_some h

/-- A number of a unit is expressed in it already. -/
theorem resolve_self (r : UnitRegistry) (x : Float) (unit : String) :
    r.resolve x unit unit = .ok (x, unit) :=
  if_pos rfl

-- ================================================================= landings

/-- What a number of a base becomes on the way to a unit, and where it ends
up. -/
inductive Lands (r : UnitRegistry) (b : Float) (base target : String) : Float → String → Prop
  | there (h : base = target) : Lands r b base target b target
  | through {c : Converter} {z : Float} (hne : base ≠ target)
      (hc : r.converters.get? (base, target) = some c) (hz : c.fromBase b = .ok z) :
      Lands r b base target z target
  | plain (hne : base ≠ target) (hnone : r.converters.get? (base, target) = none)
      (hplain : base = dimensionless) : Lands r b base target b dimensionless

/-- A conversion to another unit goes through a base and lands. -/
theorem resolve_ok_iff (hne : unit ≠ target) :
    r.resolve x unit target = .ok (z, last)
      ↔ ∃ b base, r.toBase x unit = .ok (b, base) ∧ r.Lands b base target z last := by
  unfold resolve
  rw [if_neg hne, bind_eq_ok]
  constructor
  · rintro ⟨⟨b, base⟩, hbase, h⟩
    refine ⟨b, base, hbase, ?_⟩
    dsimp only at h
    split at h
    · next heq =>
        cases h
        exact .there heq
    · next hbne =>
        split at h
        · next c hc =>
            obtain ⟨z, hz, heq⟩ := map_eq_ok.1 h
            cases heq
            exact .through hbne hc hz
        · next hnone =>
            split at h
            · next hplain =>
                cases h
                exact .plain hbne hnone hplain
            · cases h
  · rintro ⟨b, base, hbase, hlands⟩
    refine ⟨(b, base), hbase, ?_⟩
    dsimp only
    -- Each way to land is one branch of the conversion, taken with its tests decided.
    cases hlands with
    | there heq => rw [if_pos heq]; rfl
    | through hbne hc hz => rw [if_neg hbne, hc]; dsimp only; rw [hz]; rfl
    | plain hbne hnone hplain => rw [if_neg hbne, hnone]; dsimp only; rw [if_pos hplain]; rfl

/-- The unit at the end is that of every number. -/
theorem Lands.landing (h : r.Lands b base target z last) : r.landing? base target = some last := by
  unfold landing?
  cases h with
  | there heq => rw [if_pos heq]
  | through hne hc _ => rw [if_neg hne, hc]; rfl
  | plain hne hnone hplain => rw [if_neg hne, hnone]; simp [hplain]

theorem landing_of_resolve (hne : unit ≠ target) (h : r.resolve x unit target = .ok (z, last)) :
    ∃ base, r.baseOf? unit = some base ∧ r.landing? base target = some last := by
  obtain ⟨b, base, hbase, hlands⟩ := (resolve_ok_iff hne).1 h
  exact ⟨base, baseOf_of_toBase hbase, hlands.landing⟩

/-- Numbers of one unit that are expressed in another one end up in the same
unit. -/
theorem last_unique {last' : String} (h : r.resolve x unit target = .ok (z, last))
    (h' : r.resolve y unit target = .ok (b, last')) : last = last' := by
  by_cases hsame : unit = target
  · subst hsame
    rw [resolve_self] at h h'
    cases h
    cases h'
    rfl
  · -- The base and the landing are computed from the units alone.
    obtain ⟨base, hbase, hlanding⟩ := landing_of_resolve hsame h
    obtain ⟨base', hbase', hlanding'⟩ := landing_of_resolve hsame h'
    rw [hbase] at hbase'
    cases hbase'
    rw [hlanding] at hlanding'
    exact Option.some.inj hlanding'

theorem landing_isSome :
    (r.landing? base target).isSome
      ↔ base = target ∨ base = dimensionless ∨ r.converters.contains (base, target) := by
  unfold landing? Registry.contains
  split
  · next heq => simp [heq]
  · next hne =>
      split
      · next hsome => simp [hsome]
      · next hnone =>
          split
          · next hplain => simp [hplain]
          · next hnamed => simp [hne, hnone, hnamed]

-- ================================================================== returns

/-- A unit leads back to another one if the first converter for it, where it
has one, goes by a base that leads there. -/
def LeadsBack (r : UnitRegistry) (last unit : String) : Prop :=
  last = unit ∨ last = dimensionless ∨ ∀ c, r.converterFor? last = some c →
    c.base = unit ∨ c.base = dimensionless ∨ r.converters.contains (c.base, unit)

theorem convert_ok_iff (htotal : r.Total) (hne : unit ≠ target) (x : Float) :
    (∃ y, r.convert x unit target = .ok y)
      ↔ ∃ base, r.baseOf? unit = some base ∧ (r.landing? base target).isSome := by
  have hconvert : (∃ y, r.convert x unit target = .ok y)
      ↔ ∃ y last, r.resolve x unit target = .ok (y, last) := by
    simp only [convert, map_eq_ok, Prod.exists]
    constructor
    · rintro ⟨_, y, last, h, -⟩
      exact ⟨y, last, h⟩
    · rintro ⟨y, last, h⟩
      exact ⟨y, y, last, h, rfl⟩
  rw [hconvert]
  constructor
  · rintro ⟨y, last, h⟩
    obtain ⟨base, hbase, hlanding⟩ := landing_of_resolve hne h
    exact ⟨base, hbase, Option.isSome_of_eq_some hlanding⟩
  · rintro ⟨base, hbase, hlanding⟩
    obtain ⟨last, hlast⟩ := Option.isSome_iff_exists.1 hlanding
    obtain ⟨y, hy⟩ := (resolve_iff htotal (htotal.toBase_of_baseOf hbase) hne x).2 hlast
    exact ⟨y, last, hy⟩

/-- A unit without a converter that numbers of another one end up in is
their base, and the base of a converter for that one. -/
theorem baseOf_of_unserved (hbase : r.baseOf? unit = some base)
    (hlanding : r.landing? base target = some last) (hback : last ≠ unit)
    (hnamed : last ≠ dimensionless) (hnone : r.converterFor? last = none) :
    r.baseOf? last = some last ∧ r.converters.contains (last, unit) := by
  obtain rfl : base = last := by
    unfold landing? at hlanding
    split at hlanding
    · next heq => exact heq.trans (Option.some.inj hlanding)
    · split at hlanding
      · next hsome =>
          -- The converter that was taken would be one for the unit at the end.
          obtain ⟨c, hc⟩ := Option.isSome_iff_exists.1 hsome
          obtain ⟨-, hunit⟩ := Prod.mk.inj (Registry.key_of_get? hc)
          rw [← Option.some.inj hlanding] at hnone
          have hother := List.find?_eq_none.1 hnone c (List.mem_of_find?_eq_some hc)
          exact absurd (beq_iff_eq.2 hunit) hother
      · split at hlanding
        · exact absurd (Option.some.inj hlanding).symm hnamed
        · cases hlanding
  unfold baseOf? at hbase
  split at hbase
  · exact absurd (Option.some.inj hbase).symm hnamed
  · split at hbase
    · next c hc =>
        obtain rfl := Option.some.inj hbase
        have hmem : c ∈ r.converters.entries := List.mem_of_find?_eq_some hc
        have hisBase : r.isBase c.base = true :=
          List.any_eq_true.2 ⟨c, hmem, beq_self_eq_true _⟩
        have hget := Registry.get?_of_mem hmem
        rw [show Keyed.key c = (c.base, unit) from congrArg _ (converterFor_unit hc)] at hget
        refine ⟨?_, Option.isSome_of_eq_some hget⟩
        unfold baseOf?
        rw [if_neg hnamed, hnone]
        exact if_pos hisBase
    · split at hbase
      · exact absurd (Option.some.inj hbase).symm hback
      · cases hbase

/-- The unit that a unit was expressed in is expressed in the first one
again, for every number, if it leads back to it, and else for none. -/
theorem convert_back_iff (htotal : r.Total) (h : r.resolve x unit target = .ok (y, last))
    (z : Float) : (∃ w, r.convert z last unit = .ok w) ↔ r.LeadsBack last unit := by
  -- Nothing to go back from, and then a plain number, which adopts any unit; both are settled
  -- without looking for a converter.
  by_cases hback : last = unit
  · refine iff_of_true ⟨z, ?_⟩ (Or.inl hback)
    unfold convert
    rw [hback, resolve_self]
    rfl
  have hne : unit ≠ target := by
    rintro rfl
    rw [resolve_self] at h
    cases h
    exact hback rfl
  obtain ⟨base, hbase, hlanding⟩ := landing_of_resolve hne h
  rw [convert_ok_iff htotal hback]
  unfold LeadsBack
  by_cases hplain : last = dimensionless
  · refine iff_of_true ⟨dimensionless, if_pos hplain, ?_⟩ (Or.inr (Or.inl hplain))
    exact landing_isSome.2 (Or.inr (Or.inl rfl))
  -- With a converter the way back goes by its base, whatever that is.
  cases hfor : r.converterFor? last with
  | some c =>
      have hlast : r.baseOf? last = some c.base := by
        unfold baseOf?
        rw [if_neg hplain, hfor]
      simp [hlast, landing_isSome, hback, hplain]
  | none =>
      obtain ⟨hlast, hcontains⟩ := baseOf_of_unserved hbase hlanding hback hplain hfor
      refine iff_of_true ⟨last, hlast, landing_isSome.2 (Or.inr (Or.inr hcontains))⟩ ?_
      exact Or.inr (Or.inr fun c hc => by cases hc)

/-- The unit that values end up in, told without a value. -/
theorem normalizedUnit_of_resolve (htotal : r.Total)
    (h : r.resolve x unit target = .ok (y, last)) : r.normalizedUnit unit target = .ok last := by
  unfold normalizedUnit
  rw [map_eq_ok]
  by_cases hsame : unit = target
  · subst hsame
    rw [resolve_self] at h
    cases h
    exact ⟨_, resolve_self r 1.0 unit, rfl⟩
  · obtain ⟨base, hbase, hlanding⟩ := landing_of_resolve hsame h
    obtain ⟨one, hone⟩ :=
      (resolve_iff htotal (htotal.toBase_of_baseOf hbase) hsame 1.0).2 hlanding
    exact ⟨(one, last), hone, rfl⟩

-- ================================================================ histories

/-- The registries that come of the usual one by additions of converters
whose formulas are defined everywhere, and by removals. -/
inductive Reached : UnitRegistry → Prop
  | standard {resolution : Float} (h : (resolution == 0.0) = false) (canonicalUnit : String) :
      Reached (standard (.number resolution) canonicalUnit)
  | add {r : UnitRegistry} {c : Converter} (h : Reached r) (hc : c.Total) :
      Reached (r.addConverter c)
  | remove {r : UnitRegistry} (h : Reached r) (base unit : String) :
      Reached (r.removeConverter base unit)

theorem Total.add {c : Converter} (h : r.Total) (hc : c.Total) : (r.addConverter c).Total := by
  intro d hd
  rcases Registry.mem_add hd with rfl | hd
  · exact hc
  · exact h d hd

theorem Total.remove (h : r.Total) (base unit : String) : (r.removeConverter base unit).Total :=
  fun d hd => h d (Registry.mem_remove hd)

/-- All of their formulas are defined everywhere. -/
theorem Reached.total (h : r.Reached) : r.Total := by
  -- By the history: a removal adds no formula, an addition one that is defined everywhere.
  induction h with
  | standard h canonicalUnit => exact standard_total h canonicalUnit
  | add _ hc ih => exact ih.add hc
  | remove _ base unit ih => exact ih.remove base unit

end UnitRegistry

end UnitCalc
