/-
Tidy registries, in which every label is the unit of one converter at most
and a base is the unit of none.

A number there stands for a number of its base (`UnitRegistry.Stands`), and
wherever it is taken goes where that one goes. So a conversion may stop at any
unit on its way, provided the formulas undo each other there
(`UnitRegistry.ExactAt`), and nothing depends on the order in which the
converters were registered. Both are said together in `Tidy.resolve_paths`.

# Paths

That a number stands for one of the base has two halves: the base is what it
is taken to, and from the base it is the one number that is reached in its
unit. With both, a conversion from the unit is a landing from the base
(`Stands.resolve_iff`), its own unit included, and two numbers that stand for
the same one go the same ways. A number and what it becomes in another unit
do (`Tidy.stands`, `Tidy.stands_landed`); the second half is where formulas
have to undo each other, on floats and at these numbers only, which no
registry promises and the statement therefore assumes.

# Order

A conversion asks three things of a registry (`resolve_congr`): the first
converter for a unit, the converter for a pair, and whether a label is a base.
The first of them looks for a first entry, so the order could matter; where
each entry with the property is the only one, it does not (`find?_perm`). The
other two never depend on it.
-/
import Mathlib.Data.List.Find
import UnitCalc.Proofs.Unit.Routes

namespace UnitCalc

/-- The formulas of a converter undo each other at a number and its base. -/
def Converter.Inverse (c : Converter) (x b : Float) : Prop :=
  c.toBase x = .ok b ↔ c.fromBase b = .ok x

namespace UnitRegistry

variable {r : UnitRegistry} {x y z b : Float} {unit middle target base last : String}
  {c : Converter}

-- ================================================================== standing

theorem lands_there : r.Lands b base base z last ↔ z = b ∧ last = base := by
  constructor
  · intro h
    cases h with
    | there => exact ⟨rfl, rfl⟩
    | through hne => exact absurd rfl hne
    | plain hne => exact absurd rfl hne
  · rintro ⟨rfl, rfl⟩
    exact .there rfl

theorem lands_through (hne : base ≠ target) (hc : r.converters.get? (base, target) = some c) :
    r.Lands b base target z last ↔ c.fromBase b = .ok z ∧ last = target := by
  constructor
  · intro h
    cases h with
    | there heq => exact absurd heq hne
    | through _ hc' hz =>
        rw [hc] at hc'
        cases hc'
        exact ⟨hz, rfl⟩
    | plain _ hnone =>
        rw [hc] at hnone
        cases hnone
  · rintro ⟨hz, rfl⟩
    exact .through hne hc hz

/-- A number of a unit stands for the number of its base that leads back to
it and to no other. -/
structure Stands (r : UnitRegistry) (x : Float) (unit : String) (b : Float) (base : String) :
    Prop where
  toBase : r.toBase x unit = .ok (b, base)
  back : ∀ z last, r.Lands b base unit z last ↔ z = x ∧ last = unit

/-- It goes where that number goes, its own unit included. -/
theorem Stands.resolve_iff (h : r.Stands x unit b base) :
    r.resolve x unit target = .ok (z, last) ↔ r.Lands b base target z last := by
  by_cases hsame : unit = target
  · subst hsame
    rw [resolve_self, h.back]
    simp [eq_comm]
  · rw [resolve_ok_iff hsame]
    constructor
    · rintro ⟨b', base', hbase, hlands⟩
      rw [h.toBase] at hbase
      cases hbase
      exact hlands
    · intro hlands
      exact ⟨b, base, h.toBase, hlands⟩

/-- Numbers of a base stand for themselves. -/
theorem Stands.own (h : r.toBase x unit = .ok (x, unit)) : r.Stands x unit x unit :=
  ⟨h, fun _ _ => lands_there⟩

/-- Numbers of a unit stand for what its converter makes of them. -/
theorem Tidy.stands_of_converter (hr : r.Tidy) (hc : c ∈ r.converters.entries)
    (hto : c.toBase x = .ok b) (hfrom : c.fromBase b = .ok x) :
    r.Stands x c.unit b c.base := by
  have hget : r.converters.get? (c.base, c.unit) = some c := Registry.get?_of_mem hc
  constructor
  · unfold UnitRegistry.toBase
    rw [if_neg (hr.named c hc), hr.single c hc]
    dsimp only
    rw [hto]
    rfl
  · intro z last
    rw [lands_through (hr.base_ne_unit hc) hget, hfrom, Except.ok.injEq, eq_comm (a := x)]

theorem Tidy.stands (hr : r.Tidy) (hbase : r.toBase x unit = .ok (b, base))
    (hinverse : ∀ c ∈ r.converters.entries, c.unit = unit → c.Inverse x b) :
    r.Stands x unit b base := by
  have hown : (b, base) = (x, unit) → r.Stands x unit b base := by
    rintro heq
    cases heq
    exact .own hbase
  have hserved := hbase
  -- A number stays where it is if its unit has no converter; otherwise the formulas must undo
  -- each other.
  unfold UnitRegistry.toBase at hserved
  split at hserved
  · next hplain => exact hown (by rw [← Except.ok.inj hserved, hplain])
  · split at hserved
    · next c hc =>
        obtain ⟨b', hto, heq⟩ := map_eq_ok.1 hserved
        cases heq
        have hmem : c ∈ r.converters.entries := List.mem_of_find?_eq_some hc
        obtain rfl := converterFor_unit hc
        exact hr.stands_of_converter hmem hto ((hinverse c hmem rfl).1 hto)
    · split at hserved
      · exact hown (Except.ok.inj hserved).symm
      · cases hserved

/-- What numbers go through is its own base. -/
theorem Tidy.toBase_own (hr : r.Tidy) (h : r.baseOf? unit = some base) (z : Float) :
    r.toBase z base = .ok (z, base) := by
  unfold baseOf? at h
  split at h
  · cases h
    exact if_pos rfl
  · next hnamed =>
      split at h
      · next c hc =>
          cases h
          exact hr.toBase_base (List.mem_of_find?_eq_some hc) z
      · next hnone =>
          split at h
          · next hbase =>
              cases h
              unfold UnitRegistry.toBase
              rw [if_neg hnamed, hnone]
              exact if_pos hbase
          · cases h

/-- What a number becomes in a unit stands for the same number of the
base. -/
theorem Tidy.stands_landed (hr : r.Tidy) (hbase : r.toBase x unit = .ok (b, base))
    (hlands : r.Lands b base target y last) (hlast : last = target)
    (hinverse : ∀ c ∈ r.converters.entries, c.unit = target → c.Inverse y b) :
    r.Stands y target b base := by
  cases hlands with
  | there heq =>
      subst heq
      exact .own (hr.toBase_own (baseOf_of_toBase hbase) y)
  | @through c _ _ hc hz =>
      have hmem : c ∈ r.converters.entries := List.mem_of_find?_eq_some hc
      obtain ⟨rfl, rfl⟩ := Prod.mk.inj (Registry.key_of_get? hc)
      exact hr.stands_of_converter hmem ((hinverse c hmem rfl).2 hz) hz
  -- A plain number that stays plain has not reached the unit.
  | plain hne _ hplain => exact absurd (hplain.trans hlast) hne

-- ===================================================================== paths

/-- The converters of two units undo what they make of a number of the one
and a number of the other that have a base in common. -/
def ExactAt (r : UnitRegistry) (x : Float) (unit : String) (y : Float) (target : String) : Prop :=
  ∀ b base, r.toBase x unit = .ok (b, base) → ∀ c ∈ r.converters.entries,
    (c.unit = unit → c.Inverse x b) ∧ (c.unit = target → c.Inverse y b)

/-- A number goes from a unit on its way where it goes from the first one. -/
theorem Tidy.resolve_middle (hr : r.Tidy) (h : r.convert x unit middle = .ok y)
    (hmiddle : r.normalizedUnit unit middle = .ok middle) (hexact : r.ExactAt x unit y middle) :
    r.resolve y middle target = .ok (z, last) ↔ r.resolve x unit target = .ok (z, last) := by
  obtain ⟨⟨y', last'⟩, hresolve, rfl⟩ := map_eq_ok.1 h
  obtain ⟨⟨one, middle'⟩, hone, rfl⟩ := map_eq_ok.1 hmiddle
  dsimp only at hresolve hone hexact ⊢
  -- The unit in the middle is told with the number one, and is that of every number.
  obtain rfl := last_unique hone hresolve
  by_cases hsame : unit = middle'
  · subst hsame
    rw [resolve_self] at hresolve
    cases hresolve
    exact Iff.rfl
  · obtain ⟨b, base, hbase, hlands⟩ := (resolve_ok_iff hsame).1 hresolve
    -- Both numbers stand for the same number of the base, so they go on alike.
    have hfrom := hr.stands hbase fun c hc => (hexact b base hbase c hc).1
    have hto := hr.stands_landed hbase hlands rfl fun c hc => (hexact b base hbase c hc).2
    rw [hto.resolve_iff, hfrom.resolve_iff]

-- ===================================================================== order

/-- What a conversion asks of a registry: the first converter for a unit, the
one for a pair, and whether a label is a base. -/
theorem resolve_congr {r' : UnitRegistry} (hfor : r'.converterFor? = r.converterFor?)
    (hget : r'.converters.get? = r.converters.get?) (hbase : r'.isBase = r.isBase) :
    r'.resolve = r.resolve := by
  have htoBase : r'.toBase = r.toBase := by
    funext x unit
    unfold toBase
    rw [hfor, hbase]
  funext x unit target
  unfold resolve
  rw [htoBase, hget]

theorem normalize_congr {r' : UnitRegistry} (hresolve : r'.resolve = r.resolve)
    (hunit : r'.isUnit = r.isUnit) : r'.normalize = r.normalize := by
  funext v target
  unfold normalize convert
  rw [hresolve, hunit]

/-- Where each element with a property is the first of them, the order does not
matter. -/
theorem find?_perm {α : Type} {p : α → Bool} {l l' : List α} (h : l.Perm l')
    (hfirst : ∀ a ∈ l', p a = true → l'.find? p = some a) : l.find? p = l'.find? p := by
  refine (List.find?_eq_find?_of_perm h.symm ?_).symm
  rintro a ⟨ha, hp⟩ b ⟨hb, hp'⟩
  exact Option.some.inj ((hfirst a ha hp).symm.trans (hfirst b hb hp'))

section

variable {order : List Converter} {canonicalUnit : String}

/-- The converters of a registry, registered in some order. -/
def inOrder (order : List Converter) (canonicalUnit : String) : UnitRegistry :=
  ⟨Registry.ofList order, canonicalUnit⟩

theorem entries_inOrder (h : order.Perm r.converters.entries) :
    (inOrder order canonicalUnit).converters.entries = order :=
  Registry.entries_ofList ((h.map Keyed.key).nodup_iff.2 r.converters.distinct)

theorem Tidy.converterFor_perm (hr : r.Tidy) (h : order.Perm r.converters.entries) :
    (inOrder order canonicalUnit).converterFor? = r.converterFor? := by
  funext unit
  unfold converterFor?
  rw [entries_inOrder h]
  refine find?_perm h fun c hc hunit => ?_
  rw [← beq_iff_eq.1 hunit]
  exact hr.single c hc

theorem get?_perm (h : order.Perm r.converters.entries) :
    (inOrder order canonicalUnit).converters.get? = r.converters.get? := by
  funext pair
  unfold Registry.get?
  rw [entries_inOrder h]
  refine find?_perm h fun c hc hpair => ?_
  rw [← of_decide_eq_true hpair]
  exact Registry.get?_of_mem hc

theorem isBase_perm (h : order.Perm r.converters.entries) :
    (inOrder order canonicalUnit).isBase = r.isBase := by
  funext label
  unfold isBase
  rw [entries_inOrder h]
  exact h.any_eq

theorem isUnit_perm (h : order.Perm r.converters.entries) :
    (inOrder order canonicalUnit).isUnit = r.isUnit := by
  funext label
  unfold isUnit labels
  rw [entries_inOrder h, (h.flatMap_right _).contains_eq]

end

/-- In a tidy registry a number can be taken on from any unit on its way, and
back to the first one, if the formulas undo each other there. The order in
which the converters were registered changes no conversion. -/
theorem Tidy.resolve_paths (hr : r.Tidy) :
    (∀ {x y : Float} {unit middle : String}, r.convert x unit middle = .ok y →
        r.normalizedUnit unit middle = .ok middle → r.ExactAt x unit y middle →
        (∀ target z last, r.resolve y middle target = .ok (z, last)
            ↔ r.resolve x unit target = .ok (z, last))
          ∧ r.resolve y middle unit = .ok (x, unit))
      ∧ ∀ {order : List Converter}, order.Perm r.converters.entries → ∀ canonicalUnit,
        (inOrder order canonicalUnit).resolve = r.resolve
          ∧ (inOrder order canonicalUnit).normalize = r.normalize := by
  constructor
  · intro x y unit middle h hmiddle hexact
    refine ⟨fun target z last => hr.resolve_middle h hmiddle hexact, ?_⟩
    rw [hr.resolve_middle h hmiddle hexact]
    exact resolve_self r x unit
  · intro order h canonicalUnit
    have hresolve : (inOrder order canonicalUnit).resolve = r.resolve :=
      resolve_congr (hr.converterFor_perm h) (get?_perm h) (isBase_perm h)
    exact ⟨hresolve, normalize_congr hresolve (isUnit_perm h)⟩

/-- An inch is six picas and six picas are an inch, which may go on to
points by way of them; and so it is when the usual converters are registered
the other way round. -/
theorem resolve_paths_inch :
    (standard (.number 96.0) "pt").resolve 1.0 "in" "pc" = .ok (6.0, "pc")
      ∧ (standard (.number 96.0) "pt").resolve 6.0 "pc" "in" = .ok (1.0, "in")
      ∧ (standard (.number 96.0) "pt").resolve 6.0 "pc" "pt" = .ok (72.0, "pt")
      ∧ (inOrder (standard (.number 96.0) "pt").converters.entries.reverse "pt").resolve
        = (standard (.number 96.0) "pt").resolve := by
  have htidy := standard_tidy (.number 96.0) "pt"
  have hinch : (standard (.number 96.0) "pt").resolve 1.0 "in" "pc" = .ok (6.0, "pc") := by
    decide +kernel
  have hexact : (standard (.number 96.0) "pt").ExactAt 1.0 "in" 6.0 "pc" := by
    intro b base hbase
    have hpoints : (standard (.number 96.0) "pt").toBase 1.0 "in" = .ok (72.0, "pt") := by
      decide +kernel
    rw [hpoints] at hbase
    cases hbase
    unfold Converter.Inverse
    decide +kernel
  obtain ⟨hpaths, horder⟩ := htidy.resolve_paths
  obtain ⟨hon, hback⟩ :=
    hpaths (by unfold convert; rw [hinch]; rfl) (by decide +kernel) hexact
  refine ⟨hinch, hback, (hon "pt" 72.0 "pt").2 (by decide +kernel), ?_⟩
  exact (horder (List.reverse_perm _) "pt").1

end UnitRegistry

end UnitCalc
