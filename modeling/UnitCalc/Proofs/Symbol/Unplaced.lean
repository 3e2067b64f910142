/-
What an application brings along does not know where it is used.

Tests of arguments and conversion formulas are told nothing about the source,
and the faults they raise have no place in it; an implementation is told the
place of its call and has no other to name (`FunctionSymbol.PlacedAtCall`). The
built-in ones name none at all.

These are assumptions about whatever a caller registers, and they are shown
here of what is built in. There is one lemma for each function that may fail,
in the order in which they call each other, from splitting a value to
converting it and from reading an argument to a whole function. Where
segments, trees and evaluations are concerned, the places come from elsewhere:
`Proofs/Scan/Places`, `Proofs/Evaluation/Places` and `Proofs/Session/Places`
take these facts for granted.
-/
import UnitCalc.Proofs.Error.Places
import UnitCalc.Proofs.Symbol.Builtins
import UnitCalc.Symbol.Table

namespace UnitCalc

/-- A test whose faults have no place. -/
def Validator.Unplaced (validator : Validator) : Prop :=
  ∀ v, FaultsIn nowhere (validator.accepts v)

/-- A converter whose faults have no place. -/
def Converter.Unplaced (c : Converter) : Prop :=
  ∀ x, FaultsIn nowhere (c.toBase x) ∧ FaultsIn nowhere (c.fromBase x)

/-- A function whose faults have the place of the call, or none. -/
def FunctionSymbol.PlacedAtCall (f : FunctionSymbol) : Prop :=
  ∀ arguments context, RaisesIn (· = context.position) (f.implementation arguments context)

-- =============================================================== validators

theorem Validator.unplaced_numeric : Validator.numeric.Unplaced := by
  intro v
  show FaultsIn nowhere v.isNumeric
  cases v with
  | text _ => exact .ok _
  | number _ => exact .ok _
  | truth _ => exact .ok _
  | null => exact .error trivial
  | integer n =>
      rw [Value.isNumeric]
      split
      · exact .ok _
      · exact .error trivial

theorem Validator.unplaced_string : Validator.string.Unplaced :=
  fun _ => .ok _

-- ==================================================================== units

namespace UnitRegistry

/-- A registry of converters whose faults have no place. -/
def Unplaced (r : UnitRegistry) : Prop :=
  ∀ c ∈ r.converters.entries, c.Unplaced

variable {r : UnitRegistry}

theorem split?_faults (v : Value) : FaultsIn nowhere v.split? := by
  cases v with
  | text _ => exact .ok _
  | number _ => exact .ok _
  | truth _ => exact .ok _
  | null => exact .error trivial
  | integer n =>
      rw [Value.split?]
      split
      · exact .ok _
      · exact .error trivial

theorem unitOf_faults (r : UnitRegistry) (v : Value) : FaultsIn nowhere (r.unitOf v) :=
  (split?_faults v).map _

theorem unitPower_faults (r : UnitRegistry) (v : Value) : FaultsIn nowhere (r.unitPower v) :=
  (r.unitOf_faults v).map _

theorem toBase_faults (h : r.Unplaced) (x : Float) (unit : String) :
    FaultsIn nowhere (r.toBase x unit) := by
  unfold toBase
  split
  · exact .ok _
  · split
    · next c hc => exact ((h c (List.mem_of_find?_eq_some hc)) x).1.map _
    · split
      · exact .ok _
      · exact .error (.bare _)

theorem resolve_faults (h : r.Unplaced) (x : Float) (unit target : String) :
    FaultsIn nowhere (r.resolve x unit target) := by
  unfold resolve
  split
  · exact .ok _
  · refine (toBase_faults h x unit).bind ?_
    rintro ⟨y, base⟩ -
    dsimp only
    split
    · exact .ok _
    · split
      · next c hc => exact ((h c (List.mem_of_find?_eq_some hc)) y).2.map _
      · split
        · exact .ok _
        · exact .error (.bare _)

theorem convert_faults (h : r.Unplaced) (x : Float) (unit target : String) :
    FaultsIn nowhere (r.convert x unit target) :=
  (resolve_faults h x unit target).map _

theorem normalizedUnit_faults (h : r.Unplaced) (unit target : String) :
    FaultsIn nowhere (r.normalizedUnit unit target) :=
  (resolve_faults h 1.0 unit target).map _

theorem normalize_faults (h : r.Unplaced) (v : Value) (target : String) :
    FaultsIn nowhere (r.normalize v target) := by
  unfold normalize
  refine (split?_faults v).bind fun quantity? _ => ?_
  cases quantity? with
  | none => exact .error (.bare _)
  | some quantity =>
      dsimp only
      split
      · exact .error (.bare _)
      · exact convert_faults h _ _ _

theorem unplaced_ofFormulas (base unit : String) (toBase fromBase : Float → Float) :
    (Converter.ofFormulas base unit toBase fromBase).Unplaced :=
  fun _ => ⟨.ok _, .ok _⟩

theorem unplaced_pixel (resolution : Value) : (Converter.pixel resolution).Unplaced := by
  intro x
  constructor
  · refine FaultsIn.bind ?_ fun _ _ => .ok _
    unfold Converter.ratio
    split
    · split
      · exact .error trivial
      · exact .ok _
    · split
      · exact .error trivial
      · exact .ok _
    · split
      · exact .ok _
      · exact .error trivial
    · exact .error trivial
  · refine FaultsIn.bind ?_ fun _ _ => .ok _
    unfold Converter.inverseRatio
    split
    · exact .ok _
    · split
      · exact .ok _
      · exact .error trivial
    · exact .ok _
    · exact .error trivial

/-- The registry of the usual lengths, whatever the resolution. -/
theorem unplaced_standard (resolution : Value) (canonicalUnit : String) :
    (standard resolution canonicalUnit).Unplaced := by
  unfold Unplaced
  rw [standard_entries]
  intro c hc
  simp only [List.mem_cons, List.not_mem_nil, or_false] at hc
  rcases hc with rfl | rfl | rfl | rfl | rfl | rfl | rfl
  · exact unplaced_ofFormulas _ _ _ _
  · exact unplaced_ofFormulas _ _ _ _
  · exact unplaced_ofFormulas _ _ _ _
  · exact unplaced_ofFormulas _ _ _ _
  · exact unplaced_ofFormulas _ _ _ _
  · exact unplaced_ofFormulas _ _ _ _
  · exact unplaced_pixel resolution

end UnitRegistry

-- ================================================================ functions

theorem Value.toFloat_faults (v : Value) : FaultsIn nowhere v.toFloat := by
  cases v with
  | number _ => exact .ok _
  | truth _ => exact .ok _
  | null => exact .error trivial
  | text s =>
      rw [toFloat]
      split
      · exact .ok _
      · exact .error trivial
  | integer n =>
      rw [toFloat]
      split
      · exact .ok _
      · exact .error trivial

namespace Numeric

variable (function : String) (arguments : List Value)

theorem ofValue_faults (index : Nat) (v : Value) : FaultsIn nowhere (ofValue function index v) := by
  have hread := v.toFloat_faults
  unfold ofValue
  -- What the reading raised is raised again, so its places are those of the reading.
  generalize v.toFloat = answer at hread
  split
  · split
    · exact .ok _
    · exact .error (.bare _)
  · exact .error (.bare _)
  · exact .error (hread _ rfl)

theorem argument_faults (index : Nat) : FaultsIn nowhere (argument function arguments index) := by
  unfold argument
  split
  · exact .error (.bare _)
  · exact ofValue_faults function index _

theorem wholeArgument_faults (index : Nat) :
    FaultsIn nowhere (wholeArgument function arguments index) :=
  (argument_faults function arguments index).bind fun _ _ => .ok _

theorem ofInt_faults (n : Int) : FaultsIn nowhere (ofInt n) := by
  unfold ofInt
  split
  · exact .ok _
  · exact .error trivial

theorem ofQuotient_faults (n : Int) (d : Nat) : FaultsIn nowhere (ofQuotient n d) := by
  unfold ofQuotient
  split
  · exact .ok _
  · exact .error trivial

theorem all_faults : FaultsIn nowhere (all function arguments) := by
  unfold all
  generalize arguments.zipIdx = pairs
  induction pairs with
  | nil => exact .ok _
  | cons pair pairs ih =>
      rw [List.mapM_cons]
      exact (ofValue_faults function pair.2 pair.1).bind fun _ _ => ih.bind fun _ _ => .ok _

theorem round_faults : FaultsIn nowhere (round arguments) := by
  refine (argument_faults "round" arguments 0).bind fun _ _ => ?_
  by_cases hone : arguments.length ≤ 1
  · rw [if_pos hone]
    exact .ok _
  · rw [if_neg hone]
    exact (wholeArgument_faults "round" arguments 1).bind fun _ _ => .ok _

theorem select_faults (before : Float → Float → Bool) :
    FaultsIn nowhere (select function before arguments) := by
  refine (all_faults function arguments).bind fun numbers _ => ?_
  cases numbers with
  | nil => exact .error trivial
  | cons _ _ => exact .ok _

theorem draw_raises (low high : Int) : RaisesIn nowhere (draw low high) :=
  fun _ => .ok _

theorem lift_raises {α : Type} {answer : Except Fault α} (h : FaultsIn nowhere answer) :
    RaisesIn nowhere (liftM answer : Drawing α) :=
  fun _ => h

theorem rand_raises : RaisesIn nowhere (rand arguments) := by
  have hwhole := fun index => lift_raises (wholeArgument_faults "rand" arguments index)
  -- Without bounds and with one bound the same is drawn.
  have hfraction := fun bound : Int => (draw_raises 0 bound).bind fun n =>
    lift_raises (ofQuotient_faults n steps)
  unfold rand
  split
  · exact hfraction steps
  · refine (hwhole 0).bind fun first => ?_
    split
    · split
      · exact .throw (.bare _)
      · exact hfraction (first * steps)
    · refine (hwhole 1).bind fun second => ?_
      split
      · exact .throw (.bare _)
      · exact (draw_raises first second).bind fun n => lift_raises (ofInt_faults n)

/-- The built-in functions know no place. -/
theorem placedAtCall_of_mem {f : FunctionSymbol} (hf : f ∈ functions) : f.PlacedAtCall := by
  intro arguments context
  refine RaisesIn.of_nowhere ?_
  unfold functions at hf
  simp only [List.mem_cons, List.not_mem_nil, or_false] at hf
  rcases hf with rfl | rfl | rfl | rfl | rfl | rfl | rfl
  · exact rand_raises arguments
  · exact lift_raises ((argument_faults "abs" arguments 0).bind fun _ _ => .ok _)
  · exact lift_raises ((argument_faults "floor" arguments 0).bind fun _ _ => ofInt_faults _)
  · exact lift_raises ((argument_faults "ceil" arguments 0).bind fun _ _ => ofInt_faults _)
  · exact lift_raises (round_faults arguments)
  · exact lift_raises (select_faults "min" arguments _)
  · exact lift_raises (select_faults "max" arguments _)

end Numeric

-- ================================================================== tables

/-- A table of such tests and functions. -/
structure SymbolTable.Unplaced (t : SymbolTable) : Prop where
  functions : ∀ f ∈ t.functions.entries, f.PlacedAtCall
  validators : ∀ validator ∈ t.validators.entries, validator.Unplaced

theorem SymbolTable.unplaced_standard : standard.Unplaced where
  functions _ hf := Numeric.placedAtCall_of_mem hf
  validators validator hv := by
    have hlisted : validator ∈ [Validator.numeric, Validator.string] := hv
    simp only [List.mem_cons, List.not_mem_nil, or_false] at hlisted
    rcases hlisted with rfl | rfl
    · exact Validator.unplaced_numeric
    · exact Validator.unplaced_string

end UnitCalc
