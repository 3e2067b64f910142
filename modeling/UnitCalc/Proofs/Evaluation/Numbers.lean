/-
Numbers as whole expressions.

A text that reads as a number is an expression for itself, if its signs are
read: it is cut to one literal, parsed to that, and its value is the literal
with the number that the text splits into (`Calculator.calculate_number`).

The validator of numbers and the reader of sources look at signs differently.
A sign belongs to the number in any script for the former, and for the latter
only in front of a digit of ASCII, perhaps with a point between them
(`SignsRead`). So the condition is not on what a number is but on the signs,
and it is exact: where it fails the source is cut into more than one piece
(`Calculator.calculate_arabic`). That the whole literal is one piece is shown in
`Proofs/Scan/Numeral`; that blanks around a numeral do not change what it
splits into, in `Proofs/Quantity/Splitting`.

The percentage is left out for the canonical unit, where a plain number is
converted (`Proofs/Evaluation/PlainNumbers`).
-/
import UnitCalc.Proofs.Evaluation.Outcomes
import UnitCalc.Proofs.Evaluation.PlainNumbers
import UnitCalc.Proofs.Parsing.Complete
import UnitCalc.Proofs.Scan.Numeral

namespace UnitCalc

open Text

/-- A node that has a value with a number has both for its outcome. -/
theorem Node.outcome_success {env : Environment} {n : Node} {p after : Progress} {v : Value}
    {x : Float} (hvalue : (n.evaluate env).run p = (.ok v, after))
    (hknown : (n.evaluate env).run after = (.ok v, after))
    (hnone : after.memo.normalized? = none) (hnumber : env.numberOf n.position v = .ok x) :
    ((n.outcome env).run p).1 = .ok (.success v (some x)) := by
  obtain ⟨answer, last, hnormalize, hplain, -⟩ := env.normalized_known n.position hknown hnone
  have hanswer := hplain Memo.fresh
  rw [Evaluation.run_ofExcept, hnumber] at hanswer
  obtain ⟨rfl, -⟩ := Prod.mk.inj hanswer
  have hfirst := Evaluation.run_attempt (n.evaluate env) p
  rw [hvalue] at hfirst
  have hsecond := Evaluation.run_attempt (n.normalize env) after
  unfold Node.normalize at hsecond
  rw [hnormalize] at hsecond
  unfold Node.outcome
  rw [run_bind_ok hfirst]
  show ((Evaluation.attempt (env.normalized n.position (n.evaluate env)) >>= _).run after).1 = _
  rw [run_bind_ok hsecond]
  rfl

/-- A literal that is a plain number has itself for its value, with that
number. -/
theorem Node.outcome_literal {env : Environment} (henv : env.Neutral) {source text : String}
    {x : Float} (hx : (Value.text text).Bare x) (position : Nat) (journal : Journal) :
    (((Node.root ⟨source, .literal text position⟩).outcome env).run { journal }).1
      = .ok (.success (.text text) (some x)) := by
  have hvalue : ((Node.root ⟨source, .literal text position⟩).evaluate env).run { journal }
      = (.ok (.text text),
          ⟨.node (some (.text text)) none [.node (some (.text text)) none []], journal⟩) :=
    rfl
  exact outcome_success hvalue rfl rfl (henv.numberOf hx _)

/-- A text that splits into a numeral and nothing has its number. -/
theorem Value.bare_of_split? {text : String} {numeral : Numeral}
    (h : Quantity.split? text.toList = some (numeral, [])) :
    (Value.text text).Bare numeral.toFloat := by
  unfold Bare Value.split? Quantity.read?
  dsimp only
  rw [h]
  rfl

/-- What a text that is a number is parsed to. -/
def numberTree (text : String) : Tree :=
  ⟨text, .literal (payload 0 text).text (payload 0 text).position⟩

/-- The signs of arithmetic are no units. -/
theorem signless_standard (config : Config) : config.units.Signless := by
  rintro c (rfl | rfl) <;> rfl

/-- A text that is a number is cut to one literal, without the blanks around it,
exactly if each of its signs stands in front of a digit of ASCII, perhaps with a
point between them. If so, it is parsed to that literal, and calculates to the
text of it with the number that it splits into. -/
theorem Calculator.calculate_number {config : Config} {text : String}
    (hnumber : (Value.text text).isNumeric = .ok true)
    (hlength : (text.length : Int) ≤ config.limits.expressionLength) :
    (Segment.ofSource? (.of .standard config.units) config.limits text = .ok [payload 0 text]
        ↔ SignsRead text.toList)
      ∧ (SignsRead text.toList → Tree.Within config.limits (numberTree text) →
        (Calculator.of .standard none config).parse text = .ok (numberTree text)
          ∧ (config.canonicalUnit ≠ "%" → ∃ x,
            (Value.text text).split? = .ok (some ⟨x, dimensionless⟩)
              ∧ ∀ journal,
                (((Calculator.of .standard none config).calculate text).run { journal }).1
                  = .ok (.success (.text (trimmed text)) (some x)))) := by
  have hletters : Quantity.isNumberText text.toList = true := Except.ok.inj hnumber
  have hsegments := Segment.ofSource_number_iff (signless_standard config) hletters hlength
  refine ⟨hsegments, fun hsigns hwithin => ?_⟩
  have hparse : (Calculator.of .standard none config).parse text = .ok (numberTree text) := by
    show Tree.ofSource? .standard config.units config.limits text = _
    unfold Tree.ofSource?
    rw [hsegments.2 hsigns]
    have hreads : Reads .standard [payload 0 text] (numberTree text).child none := .literal rfl
    exact Prescribed.ofSegments ⟨none, hreads⟩ hwithin
  refine ⟨hparse, fun hunit => ?_⟩
  obtain ⟨numeral, hn⟩ := Quantity.isNumberText_iff_isText.1 hletters
  obtain ⟨lead, trail, hparts, hlead, htrail, -⟩ := trim_parts text.toList
  -- The text and the literal differ by the blanks around, and split alike.
  have hwhole : (Value.text text).Bare numeral.toFloat := by
    refine Value.bare_of_split? ?_
    rw [hparts, List.append_assoc]
    exact Quantity.split?_between hn (List.all_eq_true.2 hlead) (List.all_eq_true.2 htrail)
  have htrimmed : (Value.text (trimmed text)).Bare numeral.toFloat := by
    refine Value.bare_of_split? ?_
    have halone := Quantity.split?_alone hn
    rwa [← String.toList_ofList (l := trim _)] at halone
  refine ⟨_, hwhole, fun journal => ?_⟩
  unfold Calculator.calculate
  rw [hparse]
  exact Node.outcome_literal (standard_neutral hunit text) htrimmed _ journal

/-- Digits of two scripts, a sign in front of the number and one in front of the
power, and blanks on both sides. -/
theorem Calculator.calculate_number_signed :
    (Calculator.of .standard none {}).parse "  -1\u0662.5e+3\u00A0"
        = .ok ⟨"  -1\u0662.5e+3\u00A0", .literal "-1\u0662.5e+3" 2⟩
      ∧ ∀ journal,
        (((Calculator.of .standard none {}).calculate "  -1\u0662.5e+3\u00A0").run { journal }).1
          = .ok (.success (.text "-1\u0662.5e+3") (some (-12500.0))) := by
  have hlength : ("  -1\u0662.5e+3\u00A0".length : Int)
      ≤ ({} : Config).limits.expressionLength := by
    decide
  have hnumber : (Value.text "  -1\u0662.5e+3\u00A0").isNumeric = .ok true := by decide +kernel
  have hpayload : payload 0 "  -1\u0662.5e+3\u00A0" = ⟨.literal, "-1\u0662.5e+3", 2⟩ := by
    decide +kernel
  have htree : numberTree "  -1\u0662.5e+3\u00A0"
      = ⟨"  -1\u0662.5e+3\u00A0", .literal "-1\u0662.5e+3" 2⟩ := by
    rw [numberTree, hpayload]
  have hwithin : Tree.Within ({} : Config).limits (numberTree "  -1\u0662.5e+3\u00A0") :=
    ⟨by decide, by decide, Expr.callsWithin_literal⟩
  obtain ⟨-, hread⟩ := calculate_number hnumber hlength
  obtain ⟨hparse, hvalue⟩ := hread (by decide +kernel) hwithin
  obtain ⟨x, hx, houtcome⟩ := hvalue (by decide)
  have hsplit : (Value.text "  -1\u0662.5e+3\u00A0").split? = .ok (some ⟨-12500.0, ""⟩) := by
    decide +kernel
  have hsame := hx.symm.trans hsplit
  simp only [Except.ok.injEq, Option.some.injEq, Quantity.mk.injEq] at hsame
  obtain ⟨rfl, -⟩ := hsame
  have htext : trimmed "  -1\u0662.5e+3\u00A0" = "-1\u0662.5e+3" := congrArg Segment.text hpayload
  rw [htree] at hparse
  rw [htext] at houtcome
  exact ⟨hparse, houtcome⟩

/-- A sign in front of a digit outside of ASCII is an operator, and there is no
operand in front of it. -/
theorem Calculator.calculate_arabic :
    (Value.text "-\u0663").isNumeric = .ok true
      ∧ Segment.ofSource? (.of .standard ({} : Config).units) .standard "-\u0663"
        = .ok [⟨.operator, "-", 0⟩, ⟨.literal, "\u0663", 1⟩]
      ∧ (((Calculator.of .standard none {}).calculate "-\u0663").run
          { journal := { draws := { dice := .lowest } } }).1
        = .ok (.failure ⟨.build (.missingOperand "-"), some 0, some "-\u0663"⟩) := by
  refine ⟨?_, ?_, ?_⟩ <;> decide +kernel

end UnitCalc
