/-
Sums, differences and products of lengths.

Two operands that carry units and have numbers in the canonical unit always
have a result, written in the unit of the first (`Expr.answer_retained`). The
way back to that unit is open since the registry is tidy
(`Proofs/Unit/Return`), and the formulas of these operators are defined for all
numbers.

But the unit is there for the operators above only as long as the number is
finite: a result that overflows is written as `inf` with the unit behind it,
and that reads as no quantity. So whether the unit is found again is decided by
the number, and exactly so (`Expr.answer_lengths`). Two finite operands may
well have such a sum (`Expr.demand_overflow`).
-/
import UnitCalc.Evaluation.Outcome
import UnitCalc.Proofs.Evaluation.Combining
import UnitCalc.Proofs.Quantity.Written

namespace UnitCalc

-- ================================================================= operators

/-- Operators that have a result for all numbers and keep the unit of the
first operand. -/
structure OperatorSymbol.Retaining (operator : OperatorSymbol) : Prop where
  formula : ∀ x y, ∃ z, operator.formula x y = .ok z
  retainsUnit : ∀ unit unit', operator.retainsUnit unit unit' = true

/-- Sums, differences and products are such. -/
theorem standard_retaining {symbol : String} {operator : OperatorSymbol}
    (hsymbol : symbol ∈ ["+", "-", "*"])
    (h : SymbolTable.standard.operators.get? symbol = some operator) : operator.Retaining := by
  simp only [List.mem_cons, List.not_mem_nil, or_false] at hsymbol
  rcases hsymbol with rfl | rfl | rfl
  all_goals
    obtain rfl := Option.some.inj h
    exact ⟨fun _ _ => ⟨_, rfl⟩, fun _ _ => rfl⟩

-- =================================================================== results

namespace Expr

variable {env : Environment} {left right : Expr} {operator : OperatorSymbol} {position : Nat}
  {journal : Journal} {v w : Value} {p q : Progress} {x y : Float} {unit unit' : String}

/-- Where units can be converted back, an operator that keeps them has a
result in the unit of its first operand. The unit is found again exactly if
the number is finite. -/
theorem answer_retained (hr : env.units.Tidy) (htotal : env.units.Total)
    (hlabel : ReadableLabel unit) (hoperator : operator.Retaining)
    (hleft : (left.evaluate env).run { journal } = (.ok v, p))
    (hright : (right.evaluate env).run { journal := p.journal } = (.ok w, q))
    (hunit : env.units.unitOf v = .ok (some unit)) (hunit' : env.units.unitOf w = .ok (some unit'))
    (hx : env.units.normalize v env.canonicalUnit = .ok x)
    (hy : env.units.normalize w env.canonicalUnit = .ok y) :
    ∃ result base z, operator.formula x y = .ok result
      ∧ env.units.normalizedUnit unit env.canonicalUnit = .ok base
      ∧ env.units.convert result base unit = .ok z
      ∧ (binary operator left right position).answer env journal
        = .ok (.text (Quantity.written z unit))
      ∧ env.units.unitOf (.text (Quantity.written z unit))
        = .ok (if Binary.isFinite z = true then some unit else none) := by
  have hknown := (UnitRegistry.unitOf_some hunit).1
  obtain ⟨number, base, hresolve⟩ := UnitRegistry.resolve_of_normalize hx hunit
  obtain ⟨hbase, hback⟩ := hr.convert_back htotal hknown hresolve
  obtain ⟨result, hresult⟩ := hoperator.formula x y
  obtain ⟨z, hz⟩ := hback result
  refine ⟨result, base, z, hresult, hbase, hz, ?_, UnitRegistry.unitOf_written hknown hlabel z⟩
  rw [answer_binary hleft hright,
    Environment.combine_retained hunit hunit' hx hy hresult (hoperator.retainsUnit unit unit'),
    hbase]
  simp only [bind, Except.bind, hz]
  rfl

/-- In the registry of lengths a sum, difference or product of values with
units is a text whose unit is that of the first, exactly if its number in
that unit is finite; otherwise the text carries no unit. -/
theorem answer_lengths {config : Config} {source symbol : String}
    (hresolution : 0.0 < config.resolution) (hsymbol : symbol ∈ ["+", "-", "*"])
    (hoperator : SymbolTable.standard.operators.get? symbol = some operator)
    (henv : (Calculator.of .standard none config).environment source = env)
    (hleft : (left.evaluate env).run { journal } = (.ok v, p))
    (hright : (right.evaluate env).run { journal := p.journal } = (.ok w, q))
    (hunit : env.units.unitOf v = .ok (some unit)) (hunit' : env.units.unitOf w = .ok (some unit'))
    (hx : env.units.normalize v env.canonicalUnit = .ok x)
    (hy : env.units.normalize w env.canonicalUnit = .ok y) :
    ∃ result base z, operator.formula x y = .ok result
      ∧ env.units.normalizedUnit unit env.canonicalUnit = .ok base
      ∧ env.units.convert result base unit = .ok z
      ∧ (binary operator left right position).answer env journal
        = .ok (.text (Quantity.written z unit))
      ∧ env.units.unitOf (.text (Quantity.written z unit))
        = .ok (if Binary.isFinite z = true then some unit else none) := by
  subst henv
  refine answer_retained (UnitRegistry.standard_tidy _ _)
    (UnitRegistry.standard_total (Binary.beq_zero_of_pos hresolution) _)
    (standard_readableLabel (UnitRegistry.unitOf_some hunit).1)
    (standard_retaining hsymbol hoperator) hleft hright hunit hunit' hx hy

/-- The sum of a centimeter and an inch. -/
theorem answer_lengths_sum :
    ∃ operator z, SymbolTable.standard.operators.get? "+" = some operator
      ∧ (binary operator (literal "1cm" 0) (literal "1in" 6) 4).answer
          ((Calculator.of .standard none {}).environment "1cm + 1in")
          { draws := { dice := .lowest } } = .ok (.text (Quantity.written z "cm"))
      ∧ ((Calculator.of .standard none {}).environment "1cm + 1in").units.unitOf
          (.text (Quantity.written z "cm"))
        = .ok (if Binary.isFinite z = true then some "cm" else none) := by
  have hresolution : 0.0 < ({} : Config).resolution := by decide +kernel
  have hunit : ((Calculator.of .standard none {}).environment "1cm + 1in").units.unitOf
      (.text "1cm") = .ok (some "cm") := by decide +kernel
  have hunit' : ((Calculator.of .standard none {}).environment "1cm + 1in").units.unitOf
      (.text "1in") = .ok (some "in") := by decide +kernel
  have hx : ((Calculator.of .standard none {}).environment "1cm + 1in").units.normalize
      (.text "1cm") "pt" = .ok (1.0 * (72.0 / 25.4) * 10.0) := by decide +kernel
  have hy : ((Calculator.of .standard none {}).environment "1cm + 1in").units.normalize
      (.text "1in") "pt" = .ok 72.0 := by decide +kernel
  obtain ⟨operator, hoperator⟩ : ∃ operator,
      SymbolTable.standard.operators.get? "+" = some operator := ⟨_, rfl⟩
  obtain ⟨_, _, z, -, -, -, hanswer, hcarries⟩ := answer_lengths hresolution
    (List.mem_cons_self : "+" ∈ ["+", "-", "*"]) hoperator rfl
    (rfl : ((literal "1cm" 0).evaluate _).run { journal := { draws := { dice := .lowest } } } = _)
    (rfl : ((literal "1in" 6).evaluate _).run { journal := { draws := { dice := .lowest } } } = _)
    hunit hunit' hx hy
  exact ⟨operator, z, hoperator, hanswer, hcarries⟩

/-- Two finite lengths in points whose sum overflows: the sum carries no unit,
and may not be added to a length. -/
theorem demand_overflow :
    (Calculator.of .standard none {}).units.unitOf (.text "1e308pt") = .ok (some "pt")
      ∧ (Calculator.of .standard none {}).units.normalize (.text "1e308pt") "pt" = .ok 1e308
      ∧ (((Calculator.of .standard none {}).demand "1e308pt + 1e308pt").run
          { journal := { draws := { dice := .lowest } } }).1 = .ok (.text "infpt")
      ∧ (Calculator.of .standard none {}).units.unitOf (.text "infpt") = .ok none
      ∧ (((Calculator.of .standard none {}).demand "(1e308pt + 1e308pt) + 1pt").run
          { journal := { draws := { dice := .lowest } } }).1
        = .error (.of (.unitConsistency "+" 0 1) (some 20)
            (some "(1e308pt + 1e308pt) + 1pt")) := by
  decide +kernel

end Expr

end UnitCalc
