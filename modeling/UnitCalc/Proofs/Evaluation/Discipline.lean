/-
The discipline of units.

Of an expression of literals and operators the unit of the value is known
before anything is computed: `Expr.unit?` reads it off the literals and the
retention of the operators. Evaluation keeps to it, and answers only where at
every operator both operands carry a unit or neither does (`unit_discipline`),
for any operators and converters.

# The induction

It is on the expression. The step (`CallFree.binary_sound`) takes the values of
the operands, which carry their static units, through the inversion lemma of
the operators. Two things make it go through:

* Without calls the journal is neither read nor written, so the operands have
  the same values alone as under the operator (`CallFree.constant`).
* Units travel inside of texts. The value of an operator is written, and read
  again by the operator above. So the labels must be readable, and the numbers
  finite (`Expr.Finite`), or the unit would be lost on the way;
  `Proofs/Quantity/Written` shows that otherwise it is not.

The second part of the result is the first one read backward: operands that
disagree leave no value.
-/
import UnitCalc.Evaluation.Outcome
import UnitCalc.Proofs.Evaluation.Combining
import UnitCalc.Proofs.Quantity.Written

namespace UnitCalc

-- ============================================================ static units

/-- The unit of what an operator makes of operands with certain units. -/
def OperatorSymbol.unit? (operator : OperatorSymbol) : Option String → Option String → Option String
  | some unit, some unit' => if operator.retainsUnit unit unit' then some unit else none
  | _, _ => none

/-- Whatever an operator makes of its operands carries that unit, if it is
written with a finite number. -/
theorem OperatorSymbol.Expresses.unitOf {operator : OperatorSymbol} {unit? unit'? : Option String}
    {r : UnitRegistry} {v : Value} (h : operator.Expresses unit? unit'? v)
    (hlabels : ∀ unit, r.isUnit unit = true → ReadableLabel unit)
    (hknown : ∀ unit, unit? = some unit → r.isUnit unit = true)
    (hfinite : ∀ x unit, v = .text (Quantity.written x unit) → Binary.isFinite x = true) :
    r.unitOf v = .ok (operator.unit? unit? unit'?) := by
  cases h with
  | plain z => rfl
  | dropped hretains z =>
      rw [OperatorSymbol.unit?, hretains]
      rfl
  | @retained unit unit' hretains z =>
      have hunit := hknown unit rfl
      rw [UnitRegistry.unitOf_written hunit (hlabels unit hunit), hfinite z unit rfl,
        OperatorSymbol.unit?, hretains]

/-- Operands that an operator accepts agree on having a unit. -/
theorem OperatorSymbol.Expresses.agree {operator : OperatorSymbol} {unit? unit'? : Option String}
    {v : Value} (h : operator.Expresses unit? unit'? v) : unit?.isSome = unit'?.isSome := by
  cases h <;> rfl

namespace Expr

/-- The unit of the value of an expression, read off its literals. Of a call
nothing is known. -/
def unit? (r : UnitRegistry) : Expr → Option String
  | literal text _ => (r.unitOf (.text text)).toOption.join
  | binary operator left right _ => operator.unit? (left.unit? r) (right.unit? r)
  | call _ _ _ => none

/-- Expressions of literals and operators. -/
inductive CallFree : Expr → Prop
  | literal (text : String) (position : Nat) : CallFree (literal text position)
  | binary {left right : Expr} (operator : OperatorSymbol) (hleft : CallFree left)
      (hright : CallFree right) (position : Nat) : CallFree (binary operator left right position)

/-- Whatever an operator of an expression computes and writes down is
finite. -/
def Finite (env : Environment) (journal : Journal) (e : Expr) : Prop :=
  ∀ operator left right position, binary operator left right position ∈ e.preorder →
    ∀ x unit, (binary operator left right position).answer env journal
        = .ok (.text (Quantity.written x unit)) →
      Binary.isFinite x = true

/-- Both operands of an operator carry a unit, or neither does. -/
def Agree (r : UnitRegistry) (left right : Expr) : Prop :=
  (left.unit? r).isSome = (right.unit? r).isSome

-- ============================================================== evaluation

variable {env : Environment} {journal : Journal} {e left right : Expr}
  {operator : OperatorSymbol} {position : Nat} {v : Value}

/-- Without calls the journal is neither read nor written. -/
theorem CallFree.constant (he : e.CallFree) (env : Environment) :
    ∃ answer, ∀ p, (e.compute env).run p = (answer, p) := by
  induction he with
  | literal text position => exact ⟨.ok (.text text), fun _ => rfl⟩
  | @binary left right operator _ _ position ihleft ihright =>
      obtain ⟨leftAnswer, hleft⟩ := ihleft
      obtain ⟨rightAnswer, hright⟩ := ihright
      simp only [compute]
      cases leftAnswer with
      | error fault => exact ⟨.error fault, fun p => run_bind_error (hleft p)⟩
      | ok v =>
          cases rightAnswer with
          | error fault =>
              refine ⟨.error fault, fun p => ?_⟩
              rw [run_bind_ok (hleft p), run_bind_error (hright p)]
          | ok w =>
              refine ⟨env.combine operator left.position right.position position v w,
                fun p => ?_⟩
              rw [run_bind_ok (hleft p), run_bind_ok (hright p), Evaluation.run_ofExcept]

theorem CallFree.run_compute (he : e.CallFree) (env : Environment) (journal : Journal)
    (p : Progress) : (e.compute env).run p = (e.answer env journal, p) := by
  obtain ⟨answer, hrun⟩ := he.constant env
  rw [answer_eq_compute env journal e Memo.fresh, hrun, hrun]

/-- Where an operator has a value, its operands have values that it
combines. -/
theorem CallFree.binary_ok (hleft : left.CallFree) (hright : right.CallFree)
    (h : (Expr.binary operator left right position).answer env journal = .ok v) :
    ∃ a b, left.answer env journal = .ok a ∧ right.answer env journal = .ok b
      ∧ env.combine operator left.position right.position position a b = .ok v := by
  rw [answer_eq_compute env journal _ Memo.fresh, compute] at h
  have hl := hleft.run_compute env journal ⟨Memo.fresh, journal⟩
  have hr := hright.run_compute env journal ⟨Memo.fresh, journal⟩
  cases hleftAnswer : left.answer env journal with
  | error fault =>
      rw [hleftAnswer] at hl
      rw [run_bind_error hl] at h
      cases h
  | ok a =>
      rw [hleftAnswer] at hl
      rw [run_bind_ok hl] at h
      cases hrightAnswer : right.answer env journal with
      | error fault =>
          rw [hrightAnswer] at hr
          rw [run_bind_error hr] at h
          cases h
      | ok b =>
          rw [hrightAnswer] at hr
          rw [run_bind_ok hr, Evaluation.run_ofExcept] at h
          exact ⟨a, b, rfl, rfl, h⟩

-- ================================================================ soundness

theorem unitOf_text (r : UnitRegistry) (text : String) (position : Nat) :
    r.unitOf (.text text) = .ok ((literal text position).unit? r) :=
  rfl

/-- What is asked of an operator node: its operands agree on having a unit,
and are numbers. -/
structure Sound (env : Environment) (journal : Journal) (left right : Expr) : Prop where
  agree : Agree env.units left right
  left : ∃ a, left.answer env journal = .ok a ∧ env.units.Measures a
  right : ∃ b, right.answer env journal = .ok b ∧ env.units.Measures b

section Labels

variable (hlabels : ∀ unit, env.units.isUnit unit = true → ReadableLabel unit)
include hlabels

/-- The step at one operator: if the values of the operands carry their static
units, so does that of the operator, and the operands are sound. -/
theorem CallFree.binary_sound (hleft : left.CallFree) (hright : right.CallFree)
    (hfinite : (Expr.binary operator left right position).Finite env journal)
    (hleftUnit : ∀ a, left.answer env journal = .ok a →
      env.units.unitOf a = .ok (left.unit? env.units))
    (hrightUnit : ∀ b, right.answer env journal = .ok b →
      env.units.unitOf b = .ok (right.unit? env.units))
    (h : (Expr.binary operator left right position).answer env journal = .ok v) :
    env.units.unitOf v = .ok ((Expr.binary operator left right position).unit? env.units)
      ∧ Sound env journal left right := by
  obtain ⟨a, b, ha, hb, hcombine⟩ := hleft.binary_ok hright h
  obtain ⟨unit?, unit'?, hunit, hunit', haMeasures, hbMeasures, hexpresses⟩ :=
    Environment.combine_ok hcombine
  obtain rfl := Except.ok.inj (hunit.symm.trans (hleftUnit a ha))
  obtain rfl := Except.ok.inj (hunit'.symm.trans (hrightUnit b hb))
  have hknown : ∀ unit, left.unit? env.units = some unit → env.units.isUnit unit = true := by
    intro unit hsome
    rw [hsome] at hunit
    exact (UnitRegistry.unitOf_some hunit).1
  -- The text that the operator writes is read by the one above it.
  have hwritten : ∀ x unit, v = .text (Quantity.written x unit) → Binary.isFinite x = true := by
    rintro x unit rfl
    exact hfinite operator left right position (by simp [Expr.preorder]) x unit h
  refine ⟨hexpresses.unitOf hlabels hknown hwritten, ⟨?_, ⟨a, ha, haMeasures⟩, b, hb, hbMeasures⟩⟩
  exact hexpresses.agree

/-- The value of an expression carries its static unit, and every operator in
it is sound. -/
theorem CallFree.answer_sound (he : e.CallFree) (hfinite : e.Finite env journal)
    (h : e.answer env journal = .ok v) :
    env.units.unitOf v = .ok (e.unit? env.units)
      ∧ ∀ operator left right position, Expr.binary operator left right position ∈ e.preorder →
        Sound env journal left right := by
  induction he generalizing v with
  | literal text position =>
      cases h
      refine ⟨unitOf_text env.units text position, ?_⟩
      simp [Expr.preorder]
  | @binary left right operator hleft hright position ihleft ihright =>
      have hleftFinite : left.Finite env journal := fun operator' left' right' position' hmem =>
        hfinite operator' left' right' position' (by simp [Expr.preorder, hmem])
      have hrightFinite : right.Finite env journal := fun operator' left' right' position' hmem =>
        hfinite operator' left' right' position' (by simp [Expr.preorder, hmem])
      obtain ⟨hunit, hsound⟩ := hleft.binary_sound hlabels hright hfinite
        (fun a ha => (ihleft hleftFinite ha).1) (fun b hb => (ihright hrightFinite hb).1) h
      obtain ⟨a, ha, -⟩ := hsound.left
      obtain ⟨b, hb, -⟩ := hsound.right
      refine ⟨hunit, fun operator' left' right' position' hmem => ?_⟩
      rw [Expr.preorder, List.mem_cons, List.mem_append] at hmem
      -- The operator is the one at the root, or below to the left, or below to the right.
      rcases hmem with hself | hbelow | hbelow
      · cases hself
        exact hsound
      · exact (ihleft hleftFinite ha).2 operator' left' right' position' hbelow
      · exact (ihright hrightFinite hb).2 operator' left' right' position' hbelow

/-- An expression without calls has a value only where at every operator both
operands carry a unit or neither does, and are numbers with a known unit or
none; the value then carries the unit that is read off the literals. -/
theorem unit_discipline (he : e.CallFree) (hfinite : e.Finite env journal) :
    (∀ v, e.answer env journal = .ok v →
      env.units.unitOf v = .ok (e.unit? env.units)
        ∧ ∀ operator left right position, binary operator left right position ∈ e.preorder →
          Sound env journal left right)
      ∧ ((∃ operator left right position, binary operator left right position ∈ e.preorder
          ∧ ¬ Agree env.units left right) →
        ∀ v, e.answer env journal ≠ .ok v) := by
  refine ⟨fun v hv => he.answer_sound hlabels hfinite hv, ?_⟩
  rintro ⟨operator, left, right, position, hmem, hdisagree⟩ v hv
  exact hdisagree ((he.answer_sound hlabels hfinite hv).2 operator left right position hmem).agree

end Labels

/-- The sum `1cm + 1in`. -/
def lengthSum : Expr :=
  binary { symbol := "+", precedence := 1, formula := fun x y => .ok (x + y), unary := true,
           retainsUnit := fun _ _ => true }
    (literal "1cm" 0) (literal "1in" 6) 4

/-- A sum of lengths has the unit of the first. -/
theorem unit_discipline_sum :
    (∀ unit, ((Calculator.of .standard none {}).environment "1cm + 1in").units.isUnit unit = true →
        ReadableLabel unit)
      ∧ lengthSum.CallFree
      ∧ lengthSum.Finite ((Calculator.of .standard none {}).environment "1cm + 1in")
          { draws := { dice := .lowest } }
      ∧ lengthSum.answer ((Calculator.of .standard none {}).environment "1cm + 1in")
          { draws := { dice := .lowest } } = .ok (.text "3.54cm")
      ∧ ((Calculator.of .standard none {}).environment "1cm + 1in").units.unitOf (.text "3.54cm")
          = .ok (some "cm") := by
  have hlabels : ∀ unit,
      ((Calculator.of .standard none {}).environment "1cm + 1in").units.isUnit unit = true →
      ReadableLabel unit := fun _ => standard_readableLabel
  have hfree : lengthSum.CallFree := .binary _ (.literal _ _) (.literal _ _) _
  have hanswer : lengthSum.answer ((Calculator.of .standard none {}).environment "1cm + 1in")
      { draws := { dice := .lowest } } = .ok (.text "3.54cm") := by decide +kernel
  have hfinite : lengthSum.Finite ((Calculator.of .standard none {}).environment "1cm + 1in")
      { draws := { dice := .lowest } } := by
    intro operator left right position hmem x unit hwritten
    have hself : lengthSum = binary operator left right position := by
      simpa [lengthSum, preorder, eq_comm] using hmem
    rw [← hself, hanswer] at hwritten
    have htext : "3.54cm" = Quantity.written x unit := by simpa using hwritten
    cases hx : Binary.isFinite x with
    | true => rfl
    | false =>
        have hnone := Quantity.read?_written_of_not_isFinite hx unit
        rw [← htext] at hnone
        exact absurd hnone (by decide +kernel)
  refine ⟨hlabels, hfree, hfinite, hanswer, ?_⟩
  exact ((unit_discipline hlabels hfree hfinite).1 _ hanswer).1

end Expr

end UnitCalc
