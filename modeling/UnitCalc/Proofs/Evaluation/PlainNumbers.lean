/-
Arithmetic on plain numbers.

In the standard language an expression whose literals carry no units comes to
the same in any two surroundings in which a plain number is its own number in
the canonical unit (`Environment.Neutral`): no value on the way has a unit, so
the canonical unit is never looked at again. Parsing does not look at it at all
(`Calculator.parse_canonical`).

# The comparison

`Evaluation.Same` relates two computations that go the same way, dice included,
and says of the value that it is plain. That is the invariant: literals are
plain by assumption, an operator makes plain values of plain ones
(`Neutral.combine`), and the implementations answer numbers and do not look at
their surroundings. The induction is on the expression
(`Expr.compute_alike`).

# The exception

The registry of lengths is neutral with every canonical unit but one. The
percentage is a scale of the plain numbers, so they are converted to it, and
every operator sees its operands a hundredfold (`percent_sum`). Hence the
condition of `demand_plain_iff` is exact.
-/
import UnitCalc.Evaluation.Outcome
import UnitCalc.Proofs.Evaluation.Combining
import UnitCalc.Proofs.Evaluation.Outcomes

namespace UnitCalc

open Text

-- =================================================================== values

/-- A value that is a number with nothing behind it. -/
def Value.Bare (v : Value) (x : Float) : Prop :=
  v.split? = .ok (some ⟨x, dimensionless⟩)

theorem Value.bare_number (x : Float) : (Value.number x).Bare x :=
  rfl

/-- Texts that are plain numbers. -/
theorem Value.exists_bare_text {text : String} (h : Quantity.isNumberText text.toList = true) :
    ∃ x, (Value.text text).Bare x := by
  rw [Quantity.isNumberText_eq] at h
  unfold Bare Value.split?
  cases hread : Quantity.read? text.toList with
  | none =>
      rw [hread] at h
      cases h
  | some quantity =>
      obtain ⟨number, suffix⟩ := quantity
      rw [hread, Option.any_some, beq_iff_eq] at h
      obtain rfl : suffix = dimensionless := h
      exact ⟨number, congrArg Except.ok hread⟩

theorem Value.Bare.unitPower {v : Value} {x : Float} (h : v.Bare x) (r : UnitRegistry) :
    r.unitPower v = .ok 0 := by
  unfold UnitRegistry.unitPower UnitRegistry.unitOf
  rw [h]
  rfl

-- ================================================================ literals

namespace Expr

mutual

/-- The texts of the literals of an expression. -/
def literals : Expr → List String
  | literal text _ => [text]
  | binary _ left right _ => literals left ++ literals right
  | call _ arguments _ => literalsAll arguments

/-- The texts of the literals of several expressions. -/
def literalsAll : List Expr → List String
  | [] => []
  | e :: es => literals e ++ literalsAll es

end

end Expr

-- ============================================================== same results

namespace Evaluation

variable {α β : Type} {act act' : Evaluation α} {f g : α → Evaluation β} {p : Progress}
  {good : α → Prop} {better : β → Prop}

/-- Two computations that go the same way from some progress, and answer as
they should if they do. -/
def Same (act act' : Evaluation α) (p : Progress) (good : α → Prop) : Prop :=
  act.run p = act'.run p ∧ ∀ a after, act.run p = (.ok a, after) → good a

theorem Same.bind (h : Same act act' p good)
    (hf : ∀ a after, good a → Same (f a) (g a) after better) :
    Same (act >>= f) (act' >>= g) p better := by
  obtain ⟨heq, hgood⟩ := h
  rcases hact : act.run p with ⟨answer, after⟩
  rw [hact] at heq hgood
  unfold Same
  cases answer with
  | error fault =>
      rw [run_bind_error hact, run_bind_error heq.symm]
      exact ⟨rfl, nofun⟩
  | ok a =>
      rw [run_bind_ok hact, run_bind_ok heq.symm]
      exact hf a after (hgood a after rfl)

theorem Same.refl (act : Evaluation α) (p : Progress) : Same act act p fun _ => True :=
  ⟨rfl, fun _ _ _ => trivial⟩

end Evaluation

-- ============================================================= surroundings

namespace Environment

variable {env env' : Environment} {v w : Value} {x y : Float}

/-- Surroundings in which a plain number is its own number. -/
def Neutral (env : Environment) : Prop :=
  ∀ x, env.units.convert x dimensionless env.canonicalUnit = .ok x

theorem Neutral.numberOf (henv : env.Neutral) (hv : v.Bare x) (position : Nat) :
    env.numberOf position v = .ok x := by
  rw [numberOf_iff]
  unfold UnitRegistry.normalize
  rw [hv]
  simp only [bind, Except.bind, bne_self_eq_false, Bool.false_and, Bool.false_eq_true, ↓reduceIte]
  exact henv x

/-- There an operator applies its formula to plain numbers as they are. -/
theorem Neutral.combine (henv : env.Neutral) (hv : v.Bare x) (hw : w.Bare y)
    (operator : OperatorSymbol) (leftPosition rightPosition position : Nat) :
    env.combine operator leftPosition rightPosition position v w
      = (env.applyFormula operator position x y).map .number := by
  have hpower : env.commonPower operator position v w = .ok 0 := by
    unfold commonPower
    rw [hv.unitPower, hw.unitPower]
    rfl
  unfold Environment.combine
  rw [hpower, henv.numberOf hv, henv.numberOf hw]
  rfl

/-- Surroundings that differ in nothing that plain arithmetic looks at. -/
structure Alike (env env' : Environment) : Prop where
  source : env.source = env'.source
  validators : env.validators = env'.validators
  neutral : env.Neutral
  neutral' : env'.Neutral

theorem Alike.fault (h : Alike env env') (position : Nat) (cause : Cause) :
    env.fault position cause = env'.fault position cause := by
  unfold Environment.fault
  rw [h.source]

/-- Operators combine plain numbers alike, to plain numbers. -/
theorem Alike.combine (h : Alike env env') (hv : v.Bare x) (hw : w.Bare y)
    (operator : OperatorSymbol) (leftPosition rightPosition position : Nat) (p : Progress) :
    Evaluation.Same
      (Evaluation.ofExcept (env.combine operator leftPosition rightPosition position v w))
      (Evaluation.ofExcept (env'.combine operator leftPosition rightPosition position v w))
      p fun v => ∃ x, v.Bare x := by
  unfold Evaluation.Same
  rw [h.neutral.combine hv hw, h.neutral'.combine hv hw, Evaluation.run_ofExcept,
    Evaluation.run_ofExcept]
  constructor
  · unfold applyFormula
    simp only [h.fault]
  · intro u after hu
    obtain ⟨z, -, rfl⟩ := map_eq_ok.1 (Prod.mk.inj hu).1
    exact ⟨z, Value.bare_number z⟩

theorem Alike.checkArity (h : Alike env env') (function : FunctionSymbol) (position given : Nat) :
    env.checkArity function position given = env'.checkArity function position given := by
  unfold Environment.checkArity
  rw [h.fault]

theorem Alike.checkArgument (h : Alike env env') (function : FunctionSymbol) (index : Nat)
    (parameter : Parameter) (v : Value) (position : Nat) :
    env.checkArgument function index parameter v position
      = env'.checkArgument function index parameter v position := by
  unfold Environment.checkArgument
  rw [h.validators, h.fault]

end Environment

-- =============================================================== evaluation

namespace Expr

open Environment

variable {env env' : Environment} (h : Alike env env')
include h

mutual

/-- An expression of the standard language with plain numbers for literals
comes to the same in surroundings that are alike, and to a plain number. -/
theorem compute_alike : ∀ (e : Expr) (p : Progress), e.Over .standard →
    (∀ text ∈ e.literals, Quantity.isNumberText text.toList = true) →
    Evaluation.Same (e.compute env) (e.compute env') p fun v => ∃ x, v.Bare x
  | literal text position, p, _, hplain => by
      rw [compute, compute]
      refine ⟨rfl, fun v after hv => ?_⟩
      obtain ⟨hv, -⟩ := Prod.mk.inj hv
      obtain rfl := Except.ok.inj hv
      exact Value.exists_bare_text (hplain text (by simp [literals]))
  | binary operator left right position, p, hover, hplain => by
      obtain ⟨-, hleft, hright⟩ := hover
      rw [literals] at hplain
      rw [compute, compute]
      refine (compute_alike left p hleft fun text ht =>
        hplain text (List.mem_append_left _ ht)).bind ?_
      rintro v p₁ ⟨x, hx⟩
      refine (compute_alike right p₁ hright fun text ht =>
        hplain text (List.mem_append_right _ ht)).bind ?_
      rintro w p₂ ⟨y, hy⟩
      exact h.combine hx hy operator _ _ position p₂
  | call function arguments position, p, hover, hplain => by
      obtain ⟨hknown, harguments⟩ := hover
      have hf := mem_of_standard_function hknown
      rw [literals] at hplain
      rw [compute, compute, h.checkArity]
      refine (Evaluation.Same.refl _ p).bind fun _ p₁ _ => ?_
      refine (computeArguments_alike function arguments function.parameters 0 p₁ harguments
        hplain).bind fun values p₂ _ => ?_
      refine (Evaluation.Same.refl _ p₂).bind fun _ p₃ _ => ?_
      rw [Numeric.implementation_of_mem hf values _ (env'.callContext position)]
      refine ⟨rfl, fun v after hv => ?_⟩
      obtain ⟨x, rfl⟩ := Numeric.isNumber_of_mem hf values (env'.callContext position)
        p₃.journal.draws v (Prod.mk.inj hv).1
      exact ⟨x, Value.bare_number x⟩

theorem computeArguments_alike (function : FunctionSymbol) :
    ∀ (es : List Expr) (parameters : List Parameter) (index : Nat) (p : Progress),
      OverAll .standard es →
      (∀ text ∈ literalsAll es, Quantity.isNumberText text.toList = true) →
      Evaluation.Same (computeArguments env function index es parameters)
        (computeArguments env' function index es parameters) p fun _ => True
  | [], parameters, index, p, _, _ => by
      rw [computeArguments, computeArguments]
      · exact Evaluation.Same.refl _ p
      all_goals simp
  | e :: es, [], index, p, _, _ => by
      rw [computeArguments, computeArguments]
      · exact Evaluation.Same.refl _ p
      all_goals simp
  | e :: es, parameter :: parameters, index, p, hover, hplain => by
      obtain ⟨hfirst, hrest⟩ := hover
      rw [literalsAll] at hplain
      rw [computeArguments, computeArguments]
      refine (compute_alike e p hfirst fun text ht =>
        hplain text (List.mem_append_left _ ht)).bind fun v p₁ _ => ?_
      rw [h.checkArgument]
      refine (Evaluation.Same.refl _ p₁).bind fun _ p₂ _ => ?_
      refine (computeArguments_alike function es parameters (index + 1) p₂ hrest fun text ht =>
        hplain text (List.mem_append_right _ ht)).bind fun values p₃ _ => ?_
      exact Evaluation.Same.refl _ p₃

end

end Expr

-- ================================================================== parsing

/-- Registries with the same units are read alike. -/
theorem Lexicon.move_of_isUnit {t : SymbolTable} {units units' : UnitRegistry}
    (h : ∀ label, units.isUnit label = units'.isUnit label) (s : Scan) (c : Char)
    (tail : List Char) :
    (Lexicon.of t units).move s c tail = (Lexicon.of t units').move s c tail := by
  unfold move Lexicon.of Scan.isUnitSuffix
  simp only [h]

theorem Scan.run_of_isUnit {t : SymbolTable} {units units' : UnitRegistry}
    (h : ∀ label, units.isUnit label = units'.isUnit label) (s : Scan) :
    run (.of t units) s = run (.of t units') s := by
  -- Reading asks the registry only whether a label is a unit. Induction on what is left to read.
  induction hlength : s.rest.length using Nat.strongRecOn generalizing s with
  | ind length ih =>
      cases hrest : s.rest with
      | nil => rw [run_nil hrest, run_nil hrest]
      | cons c tail =>
          have hmoves := Lexicon.move_of_isUnit (t := t) h s c tail
          cases hmove : (Lexicon.of t units).move s c tail with
          | error fault => rw [run_fault hrest hmove, run_fault hrest (hmoves ▸ hmove)]
          | ok move =>
              rw [run_move hrest hmove, run_move hrest (hmoves ▸ hmove)]
              have hshorter := s.rest_apply_lt t c tail move
              rw [← hrest, hlength] at hshorter
              exact ih _ hshorter _ rfl

/-- The canonical unit plays no part in parsing. -/
theorem Calculator.parse_canonical (config : Config) (canonical source : String) :
    (Calculator.of .standard none { config with canonicalUnit := canonical }).parse source
      = (Calculator.of .standard none config).parse source := by
  have hunits : ∀ label, ({ config with canonicalUnit := canonical } : Config).units.isUnit label
      = config.units.isUnit label := fun _ => rfl
  show Tree.ofSource? SymbolTable.standard
      ({ config with canonicalUnit := canonical } : Config).units config.limits source
    = Tree.ofSource? SymbolTable.standard config.units config.limits source
  unfold Tree.ofSource? Segment.ofSource?
  rw [Scan.run_of_isUnit hunits]

-- ============================================================ calculations

/-- The surroundings of a calculation whose canonical unit is not the
percentage are neutral. -/
theorem standard_neutral {config : Config} (h : config.canonicalUnit ≠ "%") (source : String) :
    ((Calculator.of .standard none config).environment source).Neutral :=
  UnitRegistry.convert_plain (UnitRegistry.standard_get?_plain _ _ h)

/-- A source of plain numbers is evaluated alike with any two such units. -/
theorem demand_plain {config : Config} {canonical canonical' source : String} {tree : Tree}
    (h : canonical ≠ "%") (h' : canonical' ≠ "%")
    (hparse : (Calculator.of .standard none config).parse source = .ok tree)
    (hplain : ∀ text ∈ tree.child.literals, Quantity.isNumberText text.toList = true)
    (journal : Journal) :
    (((Calculator.of .standard none { config with canonicalUnit := canonical }).demand source).run
        { journal }).1
      = (((Calculator.of .standard none { config with canonicalUnit := canonical' }).demand
        source).run { journal }).1 := by
  have hover : tree.child.Over .standard := by
    have hanswers : Answers ErrorKind.OfParsing
        (fun tree => tree.source = source ∧ tree.child.Over .standard)
        ((Calculator.of .standard none config).parse source) :=
      Tree.ofSource_answers standard_readable config.units
    rw [hparse] at hanswers
    cases hanswers with
    | ok hgood => exact hgood.2
  have hdemand : ∀ unit,
      (((Calculator.of .standard none { config with canonicalUnit := unit }).demand source).run
        { journal }).1
      = ((tree.child.compute ((Calculator.of .standard none
          { config with canonicalUnit := unit }).environment source)).run
        ⟨Memo.fresh, journal⟩).1 := by
    intro unit
    unfold Calculator.demand
    rw [Calculator.parse_canonical, hparse,
      run_bind_ok (Evaluation.run_ofExcept (.ok tree) { journal }), Node.answer_root,
      Expr.answer_eq_compute _ journal _ Memo.fresh]
  have halike : Environment.Alike
      ((Calculator.of .standard none { config with canonicalUnit := canonical }).environment source)
      ((Calculator.of .standard none { config with canonicalUnit := canonical' }).environment
        source) :=
    ⟨rfl, rfl, standard_neutral h source, standard_neutral h' source⟩
  rw [hdemand, hdemand, (Expr.compute_alike halike tree.child _ hover hplain).1]

/-- In percent a sum is not the sum of its operands. -/
theorem percent_sum :
    (∃ tree, (Calculator.of .standard none {}).parse "1 + 2" = .ok tree
        ∧ ∀ text ∈ tree.child.literals, Quantity.isNumberText text.toList = true)
      ∧ (((Calculator.of .standard none { canonicalUnit := "%" }).demand "1 + 2").run
          { journal := { draws := { dice := .lowest } } }).1 = .ok (.number 300.0)
      ∧ (((Calculator.of .standard none { canonicalUnit := "pt" }).demand "1 + 2").run
          { journal := { draws := { dice := .lowest } } }).1 = .ok (.number 3.0) := by
  refine ⟨?_, by decide +kernel, by decide +kernel⟩
  have hparsed : ((Calculator.of .standard none {}).parse "1 + 2").toOption.any (fun tree =>
      tree.child.literals.all fun text => Quantity.isNumberText text.toList) = true := by
    decide +kernel
  cases hparse : (Calculator.of .standard none {}).parse "1 + 2" with
  | error fault =>
      rw [hparse] at hparsed
      cases hparsed
  | ok tree =>
      rw [hparse] at hparsed
      exact ⟨tree, rfl, List.all_eq_true.1 hparsed⟩

/-- Plain arithmetic does not depend on the canonical unit, unless that is the
percentage. -/
theorem demand_plain_iff (canonical : String) :
    (∀ (config : Config) (source : String) (tree : Tree) (journal : Journal),
      (Calculator.of .standard none config).parse source = .ok tree →
      (∀ text ∈ tree.child.literals, Quantity.isNumberText text.toList = true) →
      (((Calculator.of .standard none { config with canonicalUnit := canonical }).demand
          source).run { journal }).1
        = (((Calculator.of .standard none { config with canonicalUnit := "pt" }).demand
          source).run { journal }).1)
      ↔ canonical ≠ "%" := by
  constructor
  · rintro hall rfl
    obtain ⟨⟨tree, hparse, hplain⟩, hpercent, hpoints⟩ := percent_sum
    have heq := hall {} "1 + 2" tree { draws := { dice := .lowest } } hparse hplain
    rw [hpercent, hpoints] at heq
    exact absurd heq (by decide +kernel)
  · intro h config source tree journal hparse hplain
    exact demand_plain h (by decide) hparse hplain journal

/-- With the percentage two plain numbers have another sum than with
points. -/
theorem demand_percent :
    (∃ tree, (Calculator.of .standard none {}).parse "1 + 2" = .ok tree
        ∧ ∀ text ∈ tree.child.literals, Quantity.isNumberText text.toList = true)
      ∧ (((Calculator.of .standard none { canonicalUnit := "%" }).demand "1 + 2").run
          { journal := { draws := { dice := .lowest } } }).1
        ≠ (((Calculator.of .standard none { canonicalUnit := "pt" }).demand "1 + 2").run
          { journal := { draws := { dice := .lowest } } }).1 := by
  obtain ⟨hparsed, hpercent, hpoints⟩ := percent_sum
  refine ⟨hparsed, ?_⟩
  rw [hpercent, hpoints]
  decide +kernel

end UnitCalc
