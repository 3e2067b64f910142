/-
How an evaluation in the standard language ends.

With a plain value, with an error of the expression, or stranded on the
remainder of an infinite number (`Ends`). The last has a description of its
own: `Expr.Strands` follows the order in which the nodes are evaluated, dice
included, and holds if the first of them that fails is such a remainder.

# The induction

It is on the expression (`compute_ends`), with the arguments of a call as an
inner one. The definition of stranding has the shape of the evaluation: a
sequence strands if its first part does, or if that has a value and the rest
strands from there. `Ends.bind` is the one step for all of them; what is left
to show is that the definition unfolds to this.

What is asked of the surroundings is that formulas and tests are defined on
plain values (`Environment.Regular`). Plainness is the invariant of values: it
holds of literals, and operators and implementations keep it
(`Proofs/Symbol/Builtins`). Only the remainder has a formula that raises
anything but an error (`Proofs/Symbol/Remainder`).
-/
import UnitCalc.Evaluation.Outcome
import UnitCalc.Proofs.Evaluation.Uncached
import UnitCalc.Proofs.Expr.Rebuild
import UnitCalc.Proofs.Symbol.Builtins
import UnitCalc.Proofs.Symbol.Remainder

namespace UnitCalc

-- =================================================================== ends

/-- A value as it should be, a reported error, or a stranded evaluation. -/
inductive Ends {α : Type} (good : α → Prop) (stranded : Prop) : Except Fault α → Prop
  | ok {a : α} (h : good a) (passed : ¬ stranded) : Ends good stranded (.ok a)
  | reported {error : ExpressionError} (kind : error.kind.ofEvaluation = true)
      (passed : ¬ stranded) : Ends good stranded (.error (.expression error))
  | stranded (h : stranded) : Ends good stranded (.error .undefinedRemainder)

namespace Ends

variable {α β : Type} {good : α → Prop} {better : β → Prop} {stranded : Prop}

theorem congr {other : Prop} {answer : Except Fault α} (h : Ends good stranded answer)
    (hiff : other ↔ stranded) : Ends good other answer := by
  cases h with
  | ok ha hpassed => exact .ok ha (mt hiff.1 hpassed)
  | reported hkind hpassed => exact .reported hkind (mt hiff.1 hpassed)
  | stranded hstranded => exact .stranded (hiff.2 hstranded)

/-- What only answers or reports does not strand. -/
theorem of_answers {kinds : ErrorKind → Prop} {answer : Except Fault α}
    (h : Answers kinds good answer) (hkinds : ∀ kind, kinds kind → kind.ofEvaluation = true) :
    Ends good False answer := by
  cases h with
  | ok ha => exact .ok ha id
  | reported hkind => exact .reported (hkinds _ hkind) id

/-- Where a computation goes on, it strands at once or later. -/
theorem bind {act : Evaluation α} {f : α → Evaluation β} {p : Progress} {whole : Prop}
    (later : α → Progress → Prop) (h : Ends good stranded (act.run p).1)
    (hf : ∀ a after, act.run p = (.ok a, after) → good a →
      Ends better (later a after) ((f a).run after).1)
    (hwhole : whole ↔ stranded ∨ ∃ a after, act.run p = (.ok a, after) ∧ later a after) :
    Ends better whole ((act >>= f).run p).1 := by
  rcases hrun : act.run p with ⟨answer, after⟩
  rw [hrun] at h hf hwhole
  cases h with
  | @ok a ha hpassed =>
      rw [run_bind_ok hrun]
      refine (hf a after rfl ha).congr (hwhole.trans ⟨?_, ?_⟩)
      · rintro (hfirst | ⟨b, last, heq, hlater⟩)
        · exact absurd hfirst hpassed
        · cases heq
          exact hlater
      · exact fun hlater => Or.inr ⟨a, after, rfl, hlater⟩
  | reported hkind hpassed =>
      rw [run_bind_error hrun]
      refine .reported hkind fun hw => ?_
      rcases hwhole.1 hw with hfirst | ⟨b, last, heq, -⟩
      · exact hpassed hfirst
      · cases heq
  | stranded hstranded =>
      rw [run_bind_error hrun]
      exact .stranded (hwhole.2 (Or.inl hstranded))

end Ends

-- =========================================================== surroundings

/-- Surroundings whose conversion formulas and tests are defined on plain
values. -/
structure Environment.Regular (env : Environment) : Prop where
  units : env.units.Total
  validators : ∀ validator ∈ env.validators.entries, ∀ v : Value, v.Plain →
    ∃ accepted, validator.accepts v = .ok accepted

namespace Environment

variable {env : Environment}

theorem numberOf_answers (henv : env.Regular) (position : Nat) {v : Value} (hv : v.Plain) :
    Answers (· = .conversion) (fun _ => True) (env.numberOf position v) := by
  have hnormalize := UnitRegistry.normalize_answers henv.units hv env.canonicalUnit
  unfold numberOf
  generalize env.units.normalize v env.canonicalUnit = answer at hnormalize
  cases hnormalize with
  | ok _ => exact .ok trivial
  | @reported error hkind =>
      obtain ⟨cause, position', source⟩ := error
      cases cause with
      | conversion issue => exact .reported rfl
      | _ => cases hkind

theorem commonPower_answers (operator : OperatorSymbol) (position : Nat) {left right : Value}
    (hleft : left.Plain) (hright : right.Plain) :
    Answers (· = .unitConsistency) (fun _ => True)
      (env.commonPower operator position left right) := by
  obtain ⟨leftPower, hleftPower⟩ := env.units.unitPower_plain hleft
  obtain ⟨rightPower, hrightPower⟩ := env.units.unitPower_plain hright
  unfold commonPower
  simp only [hleftPower, hrightPower, bind, Except.bind]
  split
  · exact .reported rfl
  · exact .ok trivial

theorem expressResult_answers (henv : env.Regular) (operator : OperatorSymbol)
    {left right : Value} (hleft : left.Plain) (hright : right.Plain) (result : Float) :
    Answers (· = .conversion) Value.Plain (env.expressResult operator left right result) := by
  obtain ⟨leftUnit?, hleftUnit⟩ := env.units.unitOf_plain hleft
  obtain ⟨rightUnit?, hrightUnit⟩ := env.units.unitOf_plain hright
  unfold expressResult
  simp only [hleftUnit, hrightUnit, bind, Except.bind]
  cases leftUnit? with
  | none => exact .ok trivial
  | some leftUnit =>
      cases rightUnit? with
      | none => exact .ok trivial
      | some rightUnit =>
          simp only
          split
          · have hbase : Answers (· = .conversion) (fun _ => True)
                (env.units.normalizedUnit leftUnit env.canonicalUnit) :=
              (UnitRegistry.resolve_answers henv.units _ _ _).map fun _ _ => trivial
            refine hbase.bind fun base _ => ?_
            exact (UnitRegistry.convert_answers henv.units _ _ _).bind fun x _ => .ok trivial
          · exact .ok trivial

/-- Whether applying an operator to two values comes to the remainder of an
infinite number. -/
def Strands (env : Environment) (operator : OperatorSymbol)
    (leftPosition rightPosition position : Nat) (left right : Value) : Prop :=
  ∃ power x y, env.commonPower operator position left right = .ok power
    ∧ env.numberOf leftPosition left = .ok x ∧ env.numberOf rightPosition right = .ok y
    ∧ operator.Strands x y

/-- A standard operator ends as its formula does. -/
theorem combine_ends (henv : env.Regular) {operator : OperatorSymbol}
    (hoperator : operator ∈ OperatorSymbol.standard) (leftPosition rightPosition position : Nat)
    {left right : Value} (hleft : left.Plain) (hright : right.Plain) :
    Ends Value.Plain (env.Strands operator leftPosition rightPosition position left right)
      (env.combine operator leftPosition rightPosition position left right) := by
  unfold Strands combine
  have hpower := env.commonPower_answers operator position hleft hright
  generalize env.commonPower operator position left right = answer at hpower
  cases hpower with
  | reported hkind => exact .reported (by rw [hkind]; rfl) (by simp)
  | @ok power _ =>
      have hx := numberOf_answers henv leftPosition hleft
      generalize env.numberOf leftPosition left = answer at hx
      cases hx with
      | reported hkind => exact .reported (by rw [hkind]; rfl) (by simp)
      | @ok x _ =>
          have hy := numberOf_answers henv rightPosition hright
          generalize env.numberOf rightPosition right = answer at hy
          cases hy with
          | reported hkind => exact .reported (by rw [hkind]; rfl) (by simp)
          | @ok y _ =>
              have hstrands : (∃ power' x' y', (Except.ok power : Except Fault Nat) = .ok power'
                  ∧ (Except.ok x : Except Fault Float) = .ok x'
                  ∧ (Except.ok y : Except Fault Float) = .ok y' ∧ operator.Strands x' y')
                  ↔ operator.Strands x y := by
                simp
              -- With the power and both numbers at hand, all depends on the formula.
              refine Ends.congr ?_ hstrands
              have happlied := OperatorSymbol.applied_of_mem hoperator x y
              simp only [bind, Except.bind, applyFormula]
              generalize operator.formula x y = answer at happlied
              cases happlied with
              | zeroDivision message hpassed => exact .reported rfl hpassed
              | undefinedRemainder hstranded => exact .stranded hstranded
              | ok z hpassed =>
                  by_cases hzero : power = 0
                  · simp only [hzero, ↓reduceIte]
                    exact .ok trivial hpassed
                  · simp only [hzero, ↓reduceIte]
                    have hexpressed := expressResult_answers henv operator hleft hright z
                    exact (Ends.of_answers hexpressed (by rintro kind rfl; rfl)).congr
                      (iff_false_intro hpassed)

theorem checkArity_ends (env : Environment) (function : FunctionSymbol) (position given : Nat) :
    Ends (fun _ => function.minArity ≤ given ∧ given ≤ function.maxArity) False
      (env.checkArity function position given) := by
  unfold checkArity
  split
  · exact .reported rfl id
  · next hwithin =>
      refine .ok ?_ id
      omega

theorem checkArgument_ends (henv : env.Regular) (function : FunctionSymbol) (index : Nat)
    (parameter : Parameter) {v : Value} (hv : v.Plain) (position : Nat) (p : Progress) :
    Ends (fun _ => True) False
      ((env.checkArgument function index parameter v position).run p).1 := by
  unfold checkArgument
  cases hvalidator : env.validators.get? parameter.type with
  | none => exact .ok trivial id
  | some validator =>
      have hmem : validator ∈ env.validators.entries := List.mem_of_find?_eq_some hvalidator
      obtain ⟨accepted, haccepted⟩ := henv.validators validator hmem v hv
      simp only
      rw [haccepted, run_bind_ok (Evaluation.run_ofExcept (.ok accepted) p)]
      cases accepted with
      | true => exact .ok trivial id
      | false => exact .reported rfl id

end Environment

-- ================================================================== trees

namespace Expr

mutual

/-- Whether the evaluation of an expression strands: that of its first
operand does, or once that has a value the second, or once both have values
the operator; and likewise of the arguments of a call. -/
def Strands (env : Environment) : Expr → Progress → Prop
  | literal _ _, _ => False
  | binary operator left right position, p =>
    left.Strands env p ∨ ∃ leftValue p₁, (left.compute env).run p = (.ok leftValue, p₁)
      ∧ (right.Strands env p₁ ∨ ∃ rightValue p₂, (right.compute env).run p₁ = (.ok rightValue, p₂)
        ∧ env.Strands operator left.position right.position position leftValue rightValue)
  | call function arguments position, p =>
    env.checkArity function position arguments.length = .ok ()
      ∧ StrandsAmong env function 0 arguments function.parameters p

/-- Whether the evaluation of the arguments of a call strands. -/
def StrandsAmong (env : Environment) (function : FunctionSymbol) (index : Nat) :
    List Expr → List Parameter → Progress → Prop
  | e :: es, parameter :: parameters, p =>
    e.Strands env p ∨ ∃ v p₁, (e.compute env).run p = (.ok v, p₁)
      ∧ ∃ p₂, (env.checkArgument function index parameter v e.position).run p₁ = (.ok (), p₂)
        ∧ StrandsAmong env function (index + 1) es parameters p₂
  | _, _, _ => False

end

theorem mem_of_standard_operator {symbol : String} {operator : OperatorSymbol}
    (h : SymbolTable.standard.operators.get? symbol = some operator) :
    operator ∈ OperatorSymbol.standard :=
  List.mem_of_find?_eq_some h

theorem mem_of_standard_function {name : String} {function : FunctionSymbol}
    (h : SymbolTable.standard.functions.get? name = some function) :
    function ∈ Numeric.functions :=
  List.mem_of_find?_eq_some h

variable {env : Environment} (henv : env.Regular)
include henv

mutual

/-- An expression of the standard language ends as said. -/
theorem compute_ends : ∀ (e : Expr) (p : Progress), e.Over .standard →
    Ends Value.Plain (e.Strands env p) ((e.compute env).run p).1
  | literal text position, p, _ => by
      rw [compute, Strands]
      exact .ok trivial id
  | binary operator left right position, p, hover => by
      obtain ⟨hknown, hleft, hright⟩ := hover
      rw [compute, Strands]
      refine (compute_ends left p hleft).bind _ (fun leftValue p₁ _ hleftPlain => ?_) Iff.rfl
      refine (compute_ends right p₁ hright).bind _ (fun rightValue p₂ _ hrightPlain => ?_) Iff.rfl
      rw [Evaluation.run_ofExcept]
      exact Environment.combine_ends henv (mem_of_standard_operator hknown) _ _ _ hleftPlain
        hrightPlain
  | call function arguments position, p, hover => by
      obtain ⟨hknown, harguments⟩ := hover
      have harity : Ends (fun _ => function.minArity ≤ arguments.length
          ∧ arguments.length ≤ function.maxArity) False
          ((Evaluation.ofExcept (env.checkArity function position arguments.length)).run p).1 := by
        rw [Evaluation.run_ofExcept]
        exact env.checkArity_ends function position arguments.length
      rw [compute, Strands]
      refine harity.bind
        (fun _ after => StrandsAmong env function 0 arguments function.parameters after)
        (fun _ p₁ _ hwithin => ?_) ?_
      · have hvalues := computeArguments_ends function arguments function.parameters 0 p₁ harguments
        refine hvalues.bind (fun _ _ => False) (fun values p₂ _ hgood => ?_) (by simp)
        obtain ⟨hplain, hlength⟩ := hgood
        have hregular := Numeric.regular_of_mem (mem_of_standard_function hknown)
        have hleast : function.minArity ≤ values.length := by
          have hmost : arguments.length ≤ function.parameters.length := hwithin.2
          rw [hlength, Nat.min_eq_left hmost]
          exact hwithin.1
        exact Ends.of_answers (hregular values hplain hleast (env.callContext position)
          p₂.journal.draws) fun _ hkind => hkind
      · rw [Evaluation.run_ofExcept, false_or]
        constructor
        · rintro ⟨hok, hlater⟩
          exact ⟨(), p, by rw [hok], hlater⟩
        · rintro ⟨_, after, heq, hlater⟩
          obtain ⟨hok, rfl⟩ := Prod.mk.inj heq
          exact ⟨hok, hlater⟩

theorem computeArguments_ends (function : FunctionSymbol) :
    ∀ (es : List Expr) (parameters : List Parameter) (index : Nat) (p : Progress),
      OverAll .standard es →
      Ends (fun values => (∀ v ∈ values, v.Plain)
          ∧ values.length = min es.length parameters.length)
        (StrandsAmong env function index es parameters p)
        ((computeArguments env function index es parameters).run p).1
  | [], parameters, index, p, _ => by
      rw [computeArguments, StrandsAmong]
      · exact .ok ⟨by simp, by simp⟩ id
      · simp
      · simp
  | e :: es, [], index, p, _ => by
      rw [computeArguments, StrandsAmong]
      · exact .ok ⟨by simp, by simp⟩ id
      · simp
      · simp
  | e :: es, parameter :: parameters, index, p, hover => by
      obtain ⟨hfirst, hrest⟩ := hover
      rw [computeArguments, StrandsAmong]
      refine (compute_ends e p hfirst).bind _ (fun v p₁ _ hv => ?_) Iff.rfl
      have hcheck := Environment.checkArgument_ends henv function index parameter hv e.position p₁
      refine hcheck.bind
        (fun _ after => StrandsAmong env function (index + 1) es parameters after)
        (fun _ p₂ _ _ => ?_) (by rw [false_or]; exact ⟨fun h => ⟨(), h⟩, fun ⟨_, h⟩ => h⟩)
      have hvalues := computeArguments_ends function es parameters (index + 1) p₂ hrest
      refine hvalues.bind (fun _ _ => False) (fun values p₃ _ hgood => ?_) (by simp)
      refine .ok ⟨?_, ?_⟩ id
      · intro w hw
        rcases List.mem_cons.1 hw with rfl | hw
        · exact hv
        · exact hgood.1 w hw
      · -- As many values as there are pairs of an argument and a parameter.
        rw [List.length_cons, hgood.2, List.length_cons, List.length_cons]
        exact (Nat.succ_min_succ _ _).symm

end

end Expr

end UnitCalc
