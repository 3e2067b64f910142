/-
What an operator makes of the values of its operands.

A value comes of them only if both are numbers in the canonical unit and both
or neither carry a unit. It is a plain number, or a number written in the unit
of the first operand: `OperatorSymbol.Expresses` lists these outcomes, and
`Environment.combine_ok` is the inversion lemma of the operators, from which
the discipline of units is derived. Conversely, operands that pass both tests
and an operator that keeps the unit leave nothing open but the conversion back
(`Environment.combine_retained`).

# Answers

`Expr.answer` is what the evaluation of an expression comes to when nothing is
known yet. It is defined by the evaluation that remembers, and it is the same
by the one that does not (`Expr.answer_eq_compute`); with the latter that of an
operator is computed from those of its operands (`Expr.answer_binary`). The
tree adds nothing to the expression below its root (`Node.answer_root`).
-/
import UnitCalc.Proofs.Evaluation.Uncached
import UnitCalc.Proofs.Unit.Return

namespace UnitCalc

open Evaluation

-- ================================================================= operators

/-- What an operator makes of operands with certain units. -/
inductive OperatorSymbol.Expresses (operator : OperatorSymbol) :
    Option String → Option String → Value → Prop
  | plain (z : Float) : Expresses operator none none (.number z)
  | dropped {unit unit' : String} (h : operator.retainsUnit unit unit' = false) (z : Float) :
      Expresses operator (some unit) (some unit') (.number z)
  | retained {unit unit' : String} (h : operator.retainsUnit unit unit' = true) (z : Float) :
      Expresses operator (some unit) (some unit') (.text (Quantity.written z unit))

namespace Environment

variable {env : Environment} {operator : OperatorSymbol} {leftPosition rightPosition position : Nat}
  {left right v : Value} {x y z : Float} {unit unit' : String}

theorem numberOf_iff :
    env.numberOf position v = .ok x ↔ env.units.normalize v env.canonicalUnit = .ok x := by
  unfold numberOf
  split
  · next hx => rw [hx]
  · next hx => rw [hx]; simp
  · next hx => rw [hx]

/-- Operands of one power carry a unit both, or neither does. -/
theorem commonPower_ok {power : Nat}
    (h : env.commonPower operator position left right = .ok power) :
    ∃ unit? unit'?, env.units.unitOf left = .ok unit? ∧ env.units.unitOf right = .ok unit'?
      ∧ unit?.isSome = unit'?.isSome ∧ power = if unit?.isSome then 1 else 0 := by
  unfold commonPower UnitRegistry.unitPower at h
  obtain ⟨leftPower, hleftPower, h⟩ := bind_eq_ok.1 h
  obtain ⟨rightPower, hrightPower, h⟩ := bind_eq_ok.1 h
  obtain ⟨unit?, hleft, rfl⟩ := map_eq_ok.1 hleftPower
  obtain ⟨unit'?, hright, rfl⟩ := map_eq_ok.1 hrightPower
  refine ⟨unit?, unit'?, hleft, hright, ?_⟩
  cases unit? <;> cases unit'? <;> simp_all [bind, Except.bind, pure, Except.pure]

/-- A result is plain, or written in the unit of the first operand. -/
theorem expressResult_ok {unit? unit'? : Option String} (hleft : env.units.unitOf left = .ok unit?)
    (hright : env.units.unitOf right = .ok unit'?) (hagree : unit?.isSome = unit'?.isSome)
    (h : env.expressResult operator left right z = .ok v) : operator.Expresses unit? unit'? v := by
  unfold expressResult at h
  rw [hleft, hright] at h
  cases unit? with
  | none =>
      cases unit'? with
      | some unit' => cases hagree
      | none =>
          cases h
          exact .plain z
  | some unit =>
      cases unit'? with
      | none => cases hagree
      | some unit' =>
          simp only [bind, Except.bind] at h
          cases hretains : operator.retainsUnit unit unit' with
          | false =>
              rw [hretains] at h
              cases h
              exact .dropped hretains z
          | true =>
              rw [hretains] at h
              obtain ⟨base, -, h⟩ := bind_eq_ok.1 h
              obtain ⟨x, -, h⟩ := bind_eq_ok.1 h
              cases h
              exact .retained hretains x

/-- Where an operator answers, its operands are numbers and agree on having a
unit, and its retention decides what becomes of the units. -/
theorem combine_ok
    (h : env.combine operator leftPosition rightPosition position left right = .ok v) :
    ∃ unit? unit'?, env.units.unitOf left = .ok unit? ∧ env.units.unitOf right = .ok unit'?
      ∧ env.units.Measures left ∧ env.units.Measures right
      ∧ operator.Expresses unit? unit'? v := by
  unfold combine at h
  obtain ⟨power, hpower, h⟩ := bind_eq_ok.1 h
  obtain ⟨x, hx, h⟩ := bind_eq_ok.1 h
  obtain ⟨y, hy, h⟩ := bind_eq_ok.1 h
  obtain ⟨z, -, h⟩ := bind_eq_ok.1 h
  obtain ⟨unit?, unit'?, hleft, hright, hagree, rfl⟩ := commonPower_ok hpower
  -- Without units the result is taken as it is; with them it is expressed.
  refine ⟨unit?, unit'?, hleft, hright, UnitRegistry.measures_of_normalize (numberOf_iff.1 hx),
    UnitRegistry.measures_of_normalize (numberOf_iff.1 hy), ?_⟩
  cases unit? with
  | none =>
      cases unit'? with
      | some unit' => cases hagree
      | none =>
          cases h
          exact .plain z
  | some unit => exact expressResult_ok hleft hright hagree h

/-- Operands that agree on having a unit and have numbers leave an operator
that keeps the unit nothing to fail in but the way back to it. -/
theorem combine_retained (hleft : env.units.unitOf left = .ok (some unit))
    (hright : env.units.unitOf right = .ok (some unit'))
    (hx : env.units.normalize left env.canonicalUnit = .ok x)
    (hy : env.units.normalize right env.canonicalUnit = .ok y)
    (hz : operator.formula x y = .ok z) (hretains : operator.retainsUnit unit unit' = true) :
    env.combine operator leftPosition rightPosition position left right = do
      let base ← env.units.normalizedUnit unit env.canonicalUnit
      let w ← env.units.convert z base unit
      return .text (Quantity.written w unit) := by
  have hpower : env.commonPower operator position left right = .ok 1 := by
    unfold commonPower UnitRegistry.unitPower
    rw [hleft, hright]
    rfl
  have happlied : env.applyFormula operator position x y = .ok z := by
    unfold applyFormula
    rw [hz]
  have hexpressed : env.expressResult operator left right z = do
      let base ← env.units.normalizedUnit unit env.canonicalUnit
      let w ← env.units.convert z base unit
      return .text (Quantity.written w unit) := by
    unfold expressResult
    rw [hleft, hright]
    simp only [bind, Except.bind, hretains, ↓reduceIte]
  unfold combine
  rw [hpower, numberOf_iff.2 hx, numberOf_iff.2 hy]
  simp only [bind, Except.bind, happlied]
  exact hexpressed

end Environment

-- ================================================================== answers

namespace Expr

variable {env : Environment} {e left right : Expr} {operator : OperatorSymbol} {position : Nat}
  {journal : Journal}

/-- What the evaluation of an expression comes to when nothing is known
yet. -/
def answer (env : Environment) (journal : Journal) (e : Expr) : Except Fault Value :=
  ((e.evaluate env).run { journal }).1

/-- It does not matter that values are remembered. -/
theorem answer_eq_compute (env : Environment) (journal : Journal) (e : Expr) (memo : Memo) :
    e.answer env journal = ((e.compute env).run ⟨memo, journal⟩).1 := by
  obtain ⟨answer, after, hevaluate, hcompute, -⟩ := e.tracks env { journal } rfl
  rw [Expr.answer, hevaluate]
  exact (congrArg Prod.fst (hcompute memo)).symm

/-- An operator combines the values of its operands, the first of which is
evaluated first. -/
theorem answer_binary {v w : Value} {p q : Progress}
    (hleft : (left.evaluate env).run { journal } = (.ok v, p))
    (hright : (right.evaluate env).run { journal := p.journal } = (.ok w, q)) :
    (binary operator left right position).answer env journal
      = env.combine operator left.position right.position position v w := by
  -- What the operands come to while remembering is what they come to without.
  obtain ⟨a, p', hleft', hv, -⟩ := left.tracks env { journal } rfl
  obtain ⟨rfl, rfl⟩ := Prod.mk.inj (hleft'.symm.trans hleft)
  obtain ⟨b, q', hright', hw, -⟩ := right.tracks env { journal := p'.journal } rfl
  obtain ⟨rfl, rfl⟩ := Prod.mk.inj (hright'.symm.trans hright)
  rw [answer_eq_compute env journal _ Memo.fresh, compute, run_bind_ok (hv Memo.fresh),
    run_bind_ok (hw Memo.fresh), run_ofExcept]

end Expr

/-- A tree comes to what the expression below its root does. -/
theorem Node.answer_root (env : Environment) (journal : Journal) (tree : Tree) :
    (((Node.root tree).evaluate env).run { journal }).1 = tree.child.answer env journal := by
  obtain ⟨answer, after, hroot, hcompute, -⟩ := Node.tracks_root env tree { journal } rfl
  rw [Expr.answer_eq_compute env journal tree.child Memo.fresh, hroot]
  exact (congrArg Prod.fst (hcompute Memo.fresh)).symm

end UnitCalc
