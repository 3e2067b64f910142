/-
The way back from the canonical unit.

What a registry expresses in another unit it need not be able to express in
the first one again. In a tidy registry (`UnitRegistry.Tidy`), where every
unit has a single converter and no base has any, it always is
(`Tidy.convert_back`). The registry of the usual lengths is tidy, whatever its
resolution (`standard_tidy`).

# The base that stays

The proof follows the base of a unit (`Based`). Every unit of a tidy registry
has one, which is its own base (`Tidy.based`); a conversion never leaves it,
since what it lands at has the same base (`Tidy.based_of_landing`); and
whatever has the base of a unit can be expressed in that unit
(`Tidy.convert_of_based`). Where formulas are defined everywhere the route is
a matter of labels alone, so it is computed without a number (`landing?`), and
one number that goes a way shows that all of them do (`resolve_iff`).

# Values

Beside that stands what a successful conversion says about a value: it is a
number, with a unit of the registry or with nothing behind it
(`measures_of_normalize`). A number with nothing behind it adopts the unit it
is expressed in (`convert_plain`), unless that is a scale of the plain
numbers.

What is not tidy is the subject of `Proofs/Unit/Routes`.
-/
import UnitCalc.Proofs.Unit.Total

namespace UnitCalc

namespace UnitRegistry

variable {r : UnitRegistry} {v : Value} {x y z : Float} {unit target base last : String}

-- =================================================================== values

/-- A number with the label of a unit behind it, or with nothing. -/
def Measures (r : UnitRegistry) (v : Value) : Prop :=
  ∃ quantity, v.split? = .ok (some quantity)
    ∧ (quantity.suffix = dimensionless ∨ r.isUnit quantity.suffix = true)

/-- Only such values have a number in some unit. -/
theorem measures_of_normalize (h : r.normalize v target = .ok x) : r.Measures v := by
  unfold normalize at h
  obtain ⟨quantity?, hsplit, h⟩ := bind_eq_ok.1 h
  cases quantity? with
  | none => cases h
  | some quantity =>
      refine ⟨quantity, hsplit, ?_⟩
      by_cases hplain : quantity.suffix = dimensionless
      · exact Or.inl hplain
      · right
        cases hunit : r.isUnit quantity.suffix with
        | true => rfl
        | false => simp [hplain, hunit] at h

/-- The unit that a value carries is the suffix of its text, and one of the
registry. -/
theorem unitOf_some (h : r.unitOf v = .ok (some unit)) :
    r.isUnit unit = true ∧ ∃ number, v.split? = .ok (some ⟨number, unit⟩) := by
  unfold unitOf at h
  obtain ⟨quantity?, hsplit, h⟩ := map_eq_ok.1 h
  obtain ⟨⟨number, suffix⟩, rfl, h⟩ := Option.bind_eq_some_iff.1 h
  obtain ⟨hunit, h⟩ := Option.ite_none_right_eq_some.1 h
  obtain rfl := Option.some.inj h
  exact ⟨hunit, number, hsplit⟩

/-- A value with a unit that has a number in another one is converted to
it. -/
theorem resolve_of_normalize (h : r.normalize v target = .ok x)
    (hunit : r.unitOf v = .ok (some unit)) :
    ∃ number base, r.resolve number unit target = .ok (x, base) := by
  obtain ⟨hknown, number, hsplit⟩ := unitOf_some hunit
  unfold normalize convert at h
  rw [hsplit] at h
  simp only [bind, Except.bind, hknown, Bool.not_true, Bool.and_false, Bool.false_eq_true,
    ↓reduceIte] at h
  obtain ⟨⟨y, base⟩, hresolve, rfl⟩ := map_eq_ok.1 h
  exact ⟨number, base, hresolve⟩

-- ============================================================ plain numbers

/-- A plain number adopts any unit that no converter leads to. -/
theorem convert_plain (h : r.converters.get? (dimensionless, target) = none) (x : Float) :
    r.convert x dimensionless target = .ok x := by
  unfold convert resolve
  by_cases hsame : dimensionless = target
  · rw [if_pos hsame]
    rfl
  · have hbase : r.toBase x dimensionless = .ok (x, dimensionless) := by
      unfold toBase
      rw [if_pos rfl]
    rw [if_neg hsame, hbase]
    simp only [bind, Except.bind, if_neg hsame, h]
    rfl

-- ========================================================== tidy registries

/-- Every unit has a single converter and a name, and bases have none. -/
structure Tidy (r : UnitRegistry) : Prop where
  named : ∀ c ∈ r.converters.entries, c.unit ≠ dimensionless
  single : ∀ c ∈ r.converters.entries, r.converterFor? c.unit = some c
  direct : ∀ c ∈ r.converters.entries, r.converterFor? c.base = none

/-- A base is its own base. -/
theorem Tidy.toBase_base (hr : r.Tidy) {c : Converter} (hc : c ∈ r.converters.entries)
    (x : Float) : r.toBase x c.base = .ok (x, c.base) := by
  unfold toBase
  rw [hr.direct c hc]
  split
  · next hplain => rw [hplain]
  · have hbase : r.isBase c.base = true := by
      unfold isBase
      rw [List.any_eq_true]
      exact ⟨c, hc, beq_self_eq_true _⟩
    rw [hbase]
    rfl

/-- The base of a unit is that of its converter. -/
theorem Tidy.toBase_unit (hr : r.Tidy) (htotal : r.Total) {c : Converter}
    (hc : c ∈ r.converters.entries) (x : Float) : ∃ y, r.toBase x c.unit = .ok (y, c.base) := by
  obtain ⟨y, hy⟩ := (htotal c hc).1 x
  refine ⟨y, ?_⟩
  unfold toBase
  rw [if_neg (hr.named c hc), hr.single c hc]
  dsimp only
  rw [hy]
  rfl

/-- A unit is not the base of its converter. -/
theorem Tidy.base_ne_unit (hr : r.Tidy) {c : Converter} (hc : c ∈ r.converters.entries) :
    c.base ≠ c.unit := by
  intro heq
  have hnone := hr.direct c hc
  rw [heq, hr.single c hc] at hnone
  cases hnone

/-- A label whose numbers have a certain base, which is its own base. -/
structure Based (r : UnitRegistry) (unit base : String) : Prop where
  toBase : ∀ x, ∃ y, r.toBase x unit = .ok (y, base)
  own : ∀ x, r.toBase x base = .ok (x, base)

/-- Every unit has a base. -/
theorem Tidy.based (hr : r.Tidy) (htotal : r.Total) (hunit : r.isUnit unit = true) :
    r.Based unit unit ∨ ∃ c ∈ r.converters.entries, c.unit = unit ∧ r.Based unit c.base := by
  unfold isUnit labels at hunit
  rw [Bool.and_eq_true, List.contains_iff_mem, List.mem_flatMap] at hunit
  obtain ⟨-, c, hc, hlabel⟩ := hunit
  rw [List.mem_cons, List.mem_singleton] at hlabel
  have hown := hr.toBase_base hc
  -- A label is known as the base or as the unit of some converter.
  rcases hlabel with rfl | rfl
  · exact Or.inl ⟨fun x => ⟨x, hown x⟩, hown⟩
  · exact Or.inr ⟨c, hc, rfl, hr.toBase_unit htotal hc, hown⟩

/-- Where the numbers of a base end up on the way to a unit, if anywhere. -/
def landing? (r : UnitRegistry) (base target : String) : Option String :=
  if base = target then some target
  else if (r.converters.get? (base, target)).isSome then some target
  else if base = dimensionless then some dimensionless
  else none

/-- A number of a unit ends up where the base of the unit leads. -/
theorem resolve_iff (htotal : r.Total) (hunit : ∀ x, ∃ y, r.toBase x unit = .ok (y, base))
    (hne : unit ≠ target) (x : Float) :
    (∃ y, r.resolve x unit target = .ok (y, last)) ↔ r.landing? base target = some last := by
  obtain ⟨y, hy⟩ := hunit x
  -- Both sides ask the same questions in the same order, the one with a number at hand and the
  -- other without.
  unfold resolve landing?
  rw [if_neg hne, hy]
  simp only [bind, Except.bind]
  split
  · simp [pure, Except.pure]
  · cases hget : r.converters.get? (base, target) with
    | some c =>
        obtain ⟨z, hz⟩ := (htotal c (List.mem_of_find?_eq_some hget)).2 y
        simp [hz, Except.map]
    | none =>
        by_cases hplain : base = dimensionless
        · simp [hplain, pure, Except.pure]
        · simp [hplain, throw, throwThe, MonadExceptOf.throw]

/-- What a base leads to has that base. -/
theorem Tidy.based_of_landing (hr : r.Tidy) (htotal : r.Total) (hunit : r.Based unit base)
    (h : r.landing? base target = some last) : r.Based last base := by
  have hbase : r.Based base base := ⟨fun x => ⟨x, hunit.own x⟩, hunit.own⟩
  -- At the base itself, behind a converter, or at a plain number that stays plain.
  unfold landing? at h
  split at h
  · next hdirect =>
      cases h
      exact hdirect ▸ hbase
  · split at h
    · next hsome =>
        cases h
        obtain ⟨c, hget⟩ := Option.isSome_iff_exists.1 hsome
        have hc : c ∈ r.converters.entries := List.mem_of_find?_eq_some hget
        obtain ⟨rfl, rfl⟩ := Prod.mk.inj (Registry.key_of_get? hget)
        exact ⟨hr.toBase_unit htotal hc, hr.toBase_base hc⟩
    · split at h
      · next hplain =>
          cases h
          exact hplain ▸ hbase
      · cases h

/-- Whatever has the base of a unit is expressed in that unit. -/
theorem Tidy.convert_of_based (hr : r.Tidy) (htotal : r.Total) (hunit : r.isUnit unit = true)
    (hbase : r.Based unit base) (hother : r.Based last base) (x : Float) :
    ∃ z, r.convert x last unit = .ok z := by
  unfold convert resolve
  by_cases hsame : last = unit
  · exact ⟨x, by rw [if_pos hsame]; rfl⟩
  rw [if_neg hsame]
  obtain ⟨y, hy⟩ := hother.toBase x
  obtain ⟨y', hy'⟩ := hbase.toBase x
  rw [hy]
  -- The unit is its own base, or has a converter from it. Either way that base is the one of the
  -- number, as both are computed from the unit.
  rcases hr.based htotal hunit with hself | ⟨c, hc, rfl, hc'⟩
  · obtain ⟨w, hw⟩ := hself.toBase x
    rw [hy'] at hw
    obtain ⟨-, rfl⟩ := Prod.mk.inj (Except.ok.inj hw)
    exact ⟨y, by simp [bind, Except.bind, pure, Except.pure, Except.map]⟩
  · obtain ⟨w, hw⟩ := hc'.toBase x
    rw [hy'] at hw
    obtain ⟨-, rfl⟩ := Prod.mk.inj (Except.ok.inj hw)
    cases hget : r.converters.get? (c.base, c.unit) with
    | none =>
        -- There is a converter for the pair, for the one at hand is.
        unfold Registry.get? at hget
        exact absurd (decide_eq_true rfl) (List.find?_eq_none.1 hget c hc)
    | some back =>
        obtain ⟨z, hz⟩ := (htotal back (List.mem_of_find?_eq_some hget)).2 y
        refine ⟨z, ?_⟩
        simp only [bind, Except.bind, if_neg (hr.base_ne_unit hc), hget, hz, Except.map]

/-- What a unit was expressed in can be expressed in the unit. -/
theorem Tidy.convert_back (hr : r.Tidy) (htotal : r.Total) (hunit : r.isUnit unit = true)
    (h : r.resolve x unit target = .ok (y, last)) :
    r.normalizedUnit unit target = .ok last ∧ ∀ z, ∃ w, r.convert z last unit = .ok w := by
  obtain ⟨base, hbase⟩ : ∃ base, r.Based unit base := by
    rcases hr.based htotal hunit with hself | ⟨c, -, -, hc⟩
    · exact ⟨unit, hself⟩
    · exact ⟨c.base, hc⟩
  -- A conversion to the unit itself does nothing, and is not a case of the other one.
  by_cases hsame : unit = target
  · unfold resolve at h
    rw [if_pos hsame] at h
    cases h
    subst hsame
    refine ⟨?_, hr.convert_of_based htotal hunit hbase hbase⟩
    unfold normalizedUnit resolve
    rw [if_pos rfl]
    rfl
  · have hlanding := (resolve_iff htotal hbase.toBase hsame x).1 ⟨y, h⟩
    obtain ⟨one, hone⟩ := (resolve_iff htotal hbase.toBase hsame 1.0).2 hlanding
    refine ⟨?_, hr.convert_of_based htotal hunit hbase
      (hr.based_of_landing htotal hbase hlanding)⟩
    unfold normalizedUnit
    rw [hone]
    rfl

-- ============================================== the registry of lengths

/-- The percentage is the only scale of the plain numbers. -/
theorem standard_get?_plain (resolution : Value) (canonicalUnit : String) (h : target ≠ "%") :
    (standard resolution canonicalUnit).converters.get? (dimensionless, target) = none := by
  unfold Registry.get?
  rw [standard_entries]
  simp [Keyed.key, Converter.centimeter, Converter.inch, Converter.millimeter,
    Converter.percentage, Converter.pica, Converter.pixel, Converter.ofFormulas, dimensionless,
    Ne.symm h]

/-- It is tidy. -/
theorem standard_tidy (resolution : Value) (canonicalUnit : String) :
    (standard resolution canonicalUnit).Tidy := by
  constructor
  all_goals
    rw [standard_entries]
    simp only [List.forall_mem_cons, List.not_mem_nil, false_imp_iff, implies_true, and_true]
  · exact ⟨by decide, by decide, by decide, by decide, by decide, by decide,
      (by decide : "px" ≠ dimensionless)⟩
  · exact ⟨rfl, rfl, rfl, rfl, rfl, rfl, rfl⟩
  · exact ⟨rfl, rfl, rfl, rfl, rfl, rfl, rfl⟩

end UnitRegistry

end UnitCalc
