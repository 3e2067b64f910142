/-
Registries whose formulas are defined everywhere.

A conversion in such a registry fails only for want of a converter, which is
an error of the expression (`normalize_answers`); the registry of the usual
lengths is such a one as soon as its resolution is not zero
(`standard_total`). What is asked of the values is that they are texts or
floats (`Value.Plain`): the others need not even have a number.

# How it goes

A conversion is at most two formulas with lookups between them. `toBase`,
`resolve`, `convert` and `normalize` are gone through in this order, each
resting on the one before, and every branch is either an answer or a report
of the one kind. The two formulas are the only places where something else
could come from, and there the hypothesis is used, once for each direction.

The outcomes of whole calculations rest on this
(`Proofs/Evaluation/Outcomes`), and so does the way back from a unit
(`Proofs/Unit/Return`), for which it is the totality itself that counts: where
formulas are defined everywhere, whether a number can be converted does not
depend on the number.
-/
import UnitCalc.Proofs.Binary.Model
import UnitCalc.Proofs.Error.Answers
import UnitCalc.Unit.Registry

namespace UnitCalc

/-- Texts and floats, which is what the standard language computes with. -/
def Value.Plain : Value → Prop
  | .text _ => True
  | .number _ => True
  | _ => False

theorem Value.Plain.split? {v : Value} (h : v.Plain) : ∃ quantity?, v.split? = .ok quantity? := by
  cases v with
  | text s => exact ⟨_, rfl⟩
  | number x => exact ⟨_, rfl⟩
  | integer n => exact h.elim
  | truth b => exact h.elim
  | null => exact h.elim

/-- A converter whose formulas are defined everywhere. -/
def Converter.Total (c : Converter) : Prop :=
  (∀ x, ∃ y, c.toBase x = .ok y) ∧ ∀ y, ∃ x, c.fromBase y = .ok x

namespace UnitRegistry

/-- A registry of such converters. -/
def Total (r : UnitRegistry) : Prop :=
  ∀ c ∈ r.converters.entries, c.Total

variable {r : UnitRegistry} {v : Value}

-- ================================================================== units

theorem unitOf_plain (r : UnitRegistry) (h : v.Plain) : ∃ unit?, r.unitOf v = .ok unit? := by
  obtain ⟨quantity?, hsplit⟩ := h.split?
  exact ⟨_, by rw [unitOf, hsplit]; rfl⟩

theorem unitPower_plain (r : UnitRegistry) (h : v.Plain) : ∃ power, r.unitPower v = .ok power := by
  obtain ⟨unit?, hunit⟩ := r.unitOf_plain h
  exact ⟨_, by rw [unitPower, hunit]; rfl⟩

-- ============================================================ conversions

theorem toBase_answers (h : r.Total) (x : Float) (unit : String) :
    Answers (· = .conversion) (fun _ => True) (r.toBase x unit) := by
  unfold toBase
  split
  · exact .ok trivial
  · split
    · next c hc =>
        obtain ⟨y, hy⟩ := (h c (List.mem_of_find?_eq_some hc)).1 x
        rw [hy]
        exact .ok trivial
    · split
      · exact .ok trivial
      · exact .reported rfl

theorem resolve_answers (h : r.Total) (x : Float) (unit target : String) :
    Answers (· = .conversion) (fun _ => True) (r.resolve x unit target) := by
  unfold resolve
  split
  · exact .ok trivial
  · refine (toBase_answers h x unit).bind ?_
    rintro ⟨y, base⟩ -
    show Answers _ _ (if base = target then _ else _)
    split
    · exact .ok trivial
    · split
      · next c hc =>
          obtain ⟨z, hz⟩ := (h c (List.mem_of_find?_eq_some hc)).2 y
          rw [hz]
          exact .ok trivial
      · split
        · exact .ok trivial
        · exact .reported rfl

theorem convert_answers (h : r.Total) (x : Float) (unit target : String) :
    Answers (· = .conversion) (fun _ => True) (r.convert x unit target) :=
  (resolve_answers h x unit target).map fun _ _ => trivial

/-- The number of a plain value, or an error of the conversion. -/
theorem normalize_answers (h : r.Total) (hv : v.Plain) (target : String) :
    Answers (· = .conversion) (fun _ => True) (r.normalize v target) := by
  obtain ⟨quantity?, hsplit⟩ := hv.split?
  unfold normalize
  rw [hsplit]
  cases quantity? with
  | none => exact .reported rfl
  | some quantity =>
      show Answers _ _ (if _ then _ else _)
      split
      · exact .reported rfl
      · exact convert_answers h _ _ _

-- ============================================== the registry of lengths

theorem total_ofFormulas (base unit : String) (toBase fromBase : Float → Float) :
    (Converter.ofFormulas base unit toBase fromBase).Total :=
  ⟨fun _ => ⟨_, rfl⟩, fun _ => ⟨_, rfl⟩⟩

theorem total_pixel {x : Float} (h : (x == 0.0) = false) : (Converter.pixel (.number x)).Total := by
  refine ⟨fun y => ⟨y * (Float.ofNat 72 / x), ?_⟩, fun y => ⟨y * (x / Float.ofNat 72), rfl⟩⟩
  simp [Converter.pixel, Converter.ratio, h, bind, Except.bind, pure, Except.pure]

/-- Its converters, in the order of their registration. -/
theorem standard_entries (resolution : Value) (canonicalUnit : String) :
    (standard resolution canonicalUnit).converters.entries
      = [.centimeter, .inch, .millimeter, .percentage, .pica "pc", .pica "pica",
        .pixel resolution] :=
  rfl

theorem standard_total {x : Float} (h : (x == 0.0) = false) (canonicalUnit : String) :
    (standard (.number x) canonicalUnit).Total := by
  unfold Total
  rw [standard_entries]
  intro c hc
  simp only [List.mem_cons, List.not_mem_nil, or_false] at hc
  rcases hc with rfl | rfl | rfl | rfl | rfl | rfl | rfl
  · exact total_ofFormulas _ _ _ _
  · exact total_ofFormulas _ _ _ _
  · exact total_ofFormulas _ _ _ _
  · exact total_ofFormulas _ _ _ _
  · exact total_ofFormulas _ _ _ _
  · exact total_ofFormulas _ _ _ _
  · exact total_pixel h

end UnitRegistry

end UnitCalc
