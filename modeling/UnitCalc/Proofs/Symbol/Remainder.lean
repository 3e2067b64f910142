/-
What the formulas of the standard operators answer.

Division by zero they report. The one thing they leave unreported is the
remainder of an infinite number (`OperatorSymbol.Strands`): it is undefined for
every divisor but zero, which is reported first, and no number at all, which
passes through. All other operators always answer a number
(`OperatorSymbol.applied_of_mem`).

`Proofs/Evaluation/Stranding` looks for such an operator among those that an
evaluation comes by.
-/
import UnitCalc.Proofs.Binary.Model
import UnitCalc.Symbol.Operator

namespace UnitCalc

/-- Whether an operator is asked for the remainder of an infinite number. -/
def OperatorSymbol.Strands (o : OperatorSymbol) (x y : Float) : Prop :=
  o.symbol = "%" ∧ (∃ negative, Binary.ofFloat x = .infinite negative)
    ∧ (y == 0.0) = false ∧ Binary.ofFloat y ≠ .nan

/-- The answers of a formula. -/
inductive Applied (o : OperatorSymbol) (x y : Float) : Except FormulaFault Float → Prop
  | ok (z : Float) (passed : ¬ o.Strands x y) : Applied o x y (.ok z)
  | zeroDivision (message : String) (passed : ¬ o.Strands x y) :
      Applied o x y (.error (.zeroDivision message))
  | undefinedRemainder (stranded : o.Strands x y) : Applied o x y (.error .undefinedRemainder)

/-- There is a remainder unless an infinite number is divided by a number. -/
theorem Binary.remainder?_eq_none_iff {x y : Float} (hy : (y == 0.0) = false) :
    remainder? x y = none
      ↔ (∃ negative, ofFloat x = .infinite negative) ∧ ofFloat y ≠ .nan := by
  have hzero : ∀ negative, ofFloat y ≠ .finite negative 0 := by
    intro negative hfinite
    rw [beq_zero_iff.2 ⟨negative, hfinite⟩] at hy
    cases hy
  unfold remainder?
  -- The cases are those of the definition; a divisor of zero has been excluded.
  cases hx : ofFloat x with
  | nan => simp
  | infinite negative => cases hdivisor : ofFloat y <;> simp
  | finite negative n =>
      cases hdivisor : ofFloat y with
      | nan => simp
      | infinite _ => simp
      | finite negative' d =>
          have hd : d ≠ 0 := by
            rintro rfl
            exact hzero negative' hdivisor
          simp [hd]

/-- A standard operator answers a number or reports a division by zero,
unless it strands. -/
theorem OperatorSymbol.applied_of_mem {o : OperatorSymbol} (ho : o ∈ standard) (x y : Float) :
    Applied o x y (o.formula x y) := by
  unfold standard at ho
  simp only [List.mem_cons, List.not_mem_nil, or_false] at ho
  rcases ho with rfl | rfl | rfl | rfl | rfl
  · exact .ok _ (by simp [Strands])
  · exact .ok _ (by simp [Strands])
  · exact .ok _ (by simp [Strands])
  · show Applied _ x y (quotient x y)
    unfold quotient
    split
    · exact .zeroDivision _ (by simp [Strands])
    · exact .ok _ (by simp [Strands])
  · show Applied _ x y (remainder x y)
    unfold remainder
    cases hy : (y == 0.0) with
    | true => exact .zeroDivision _ (by simp [Strands, hy])
    | false =>
        cases hremainder : Binary.remainder? x y with
        | none =>
            obtain ⟨hinfinite, hnumber⟩ := (Binary.remainder?_eq_none_iff hy).1 hremainder
            exact .undefinedRemainder ⟨rfl, hinfinite, hy, hnumber⟩
        | some z =>
            refine .ok z fun hstrands => ?_
            rw [(Binary.remainder?_eq_none_iff hy).2 ⟨hstrands.2.1, hstrands.2.2.2⟩] at hremainder
            cases hremainder

end UnitCalc
