/-
Texts that are handed on.

A call of texts is parsed to one node with a literal for each text, and these
literals, which are the texts without the blanks around them, are what the
implementation is given (`Calculator.callOfTexts_handed`). What the texts
contain does not matter: the names, operators, signs and units in them are
never looked at, neither when the call is read (`Proofs/Scan/Payload`) nor when
it is evaluated.

Reading and evaluation are both inductions on the list of texts, with the
position in the source (`literalsOf`) going along. The values come to be
known without the memo (`Expr.run_compute_nodeOfTexts`), and the evaluation
that remembers answers the same.
-/
import UnitCalc.Kit.Function
import UnitCalc.Proofs.Evaluation.Governing
import UnitCalc.Proofs.Scan.Payload

namespace UnitCalc

open Text

-- ================================================================== the tree

/-- The literals of some texts with commas between them, from a position on. -/
def literalsOf (position : Nat) : List String → List Expr
  | [] => []
  | text :: more =>
    .literal (trimmed text) (payload position text).position
      :: literalsOf (position + text.length + 1) more

theorem length_literalsOf (position : Nat) (texts : List String) :
    (literalsOf position texts).length = texts.length := by
  induction texts generalizing position with
  | nil => rfl
  | cons text more ih => rw [literalsOf, List.length_cons, List.length_cons, ih]

/-- The segments of some texts read as their literals. -/
theorem readsAll_payloads (t : SymbolTable) {texts : List String} (hsome : texts ≠ [])
    (position : Nat) : ReadsAll t (payloads position texts) (literalsOf position texts) := by
  induction texts generalizing position with
  | nil => exact absurd rfl hsome
  | cons text more ih =>
      have hfirst : Reads t [payload position text]
          (.literal (trimmed text) (payload position text).position) none := .literal rfl
      cases more with
      | nil => exact .one hfirst
      | cons next more => exact .more hfirst rfl (ih (List.cons_ne_nil next more) _)

/-- The node that a call of texts is parsed to. -/
def FunctionSymbol.nodeOfTexts (f : FunctionSymbol) (texts : List String) : Expr :=
  .call f (literalsOf (f.name.length + 1) texts) 0

/-- A call of texts is parsed to one node with a literal for each text. -/
theorem Tree.ofSource_callOfTexts {t : SymbolTable} (ht : t.Unstructured) (htexts : t.TakesTexts)
    (units : UnitRegistry) {limits : Limits} {f : FunctionSymbol}
    (hf : t.functions.get? f.name = some f) (hname : f.name ≠ "") (hparameters : f.OfTexts)
    {texts : List String} (hsome : texts ≠ []) (hpayloads : ∀ text ∈ texts, IsPayload text)
    (hmost : texts.length ≤ f.maxArity)
    (hlength : ((f.callOfTexts texts).length : Int) ≤ limits.expressionLength)
    (hwithin : Tree.Within limits ⟨f.callOfTexts texts, f.nodeOfTexts texts⟩) :
    Tree.ofSource? t units limits (f.callOfTexts texts)
      = .ok ⟨f.callOfTexts texts, f.nodeOfTexts texts⟩ := by
  obtain ⟨closing, hsegments⟩ := Segment.ofSource_callOfTexts ht htexts units hf hname hparameters
    hsome hpayloads hmost hlength
  have hreads : Reads t (⟨.function, f.name, 0⟩ :: ⟨.leftParen, "(", f.name.length⟩
      :: payloads (f.name.length + 1) texts ++ [⟨.rightParen, ")", closing⟩])
      (f.nodeOfTexts texts) none :=
    .call rfl hf rfl (readsAll_payloads t hsome _) rfl
  unfold Tree.ofSource?
  rw [hsegments]
  exact Prescribed.ofSegments ⟨none, hreads⟩ hwithin

-- ================================================================= the values

/-- What a call of texts hands to the implementation. -/
def handed (texts : List String) : List Value :=
  texts.map fun text => .text (trimmed text)

theorem Evaluation.run_drawing {α : Type} {act : Drawing α} {p : Progress} {answer : Except Fault α}
    {draws : Draws} (h : act.run p.journal.draws = (answer, draws)) :
    (drawing act).run p = (answer, { p with journal := { p.journal with draws } }) := by
  show drawing act p = _
  unfold drawing
  rw [h]

namespace Expr

variable {env : Environment} {f : FunctionSymbol} {validator : Validator}
  (hvalidator : env.validators.get? Parameter.string = some validator)
  (haccepts : ∀ text, validator.accepts (.text text) = .ok true)
include hvalidator haccepts

/-- Literals pass the tests of as many parameters for texts. -/
theorem run_computeArguments_literals {texts : List String} (p : Progress) :
    ∀ {parameters : List Parameter} {index position : Nat}, texts.length ≤ parameters.length →
      (∀ parameter ∈ parameters, parameter.type = Parameter.string) →
      (computeArguments env f index (literalsOf position texts) parameters).run p
        = (.ok (handed texts), p) := by
  induction texts with
  | nil => exact fun _ _ => rfl
  | cons text more ih =>
      intro parameters index position hlength htypes
      cases parameters with
      | nil => exact absurd hlength (Nat.not_succ_le_zero _)
      | cons parameter others =>
          rw [List.forall_mem_cons] at htypes
          let place := (payload position text).position
          have hliteral : ((literal (trimmed text) place).compute env).run p
              = (.ok (.text (trimmed text)), p) := rfl
          have hcheck : (env.checkArgument f index parameter (.text (trimmed text)) place).run p
              = (.ok (), p) :=
            run_checkArgument (htypes.1 ▸ hvalidator) (haccepts (trimmed text)) index p
          have hmore : (computeArguments env f (index + 1)
              (literalsOf (position + text.length + 1) more) others).run p
                = (.ok (handed more), p) :=
            ih (Nat.le_of_succ_le_succ hlength) htypes.2
          rw [literalsOf, computeArguments, run_bind_ok hliteral]
          exact (run_bind_ok hcheck).trans ((run_bind_ok hmore).trans rfl)

/-- A call of texts is noted, and the implementation answers it. -/
theorem run_compute_nodeOfTexts (hparameters : f.OfTexts) {texts : List String}
    (hleast : f.minArity ≤ texts.length) (hmost : texts.length ≤ f.maxArity) (p : Progress) :
    ((f.nodeOfTexts texts).compute env).run p
      = (Evaluation.drawing (f.implementation (handed texts) (env.callContext 0))).run
          { p with journal := { p.journal with
              invocations := p.journal.invocations ++ [⟨f, handed texts⟩] } } := by
  have harity : env.checkArity f 0 (literalsOf (f.name.length + 1) texts).length = .ok () := by
    rw [length_literalsOf]
    unfold Environment.checkArity
    rw [if_neg (by omega)]
  have hchecked := Evaluation.run_ofExcept
    (env.checkArity f 0 (literalsOf (f.name.length + 1) texts).length) p
  rw [harity] at hchecked
  have hvalues : (computeArguments env f 0 (literalsOf (f.name.length + 1) texts)
      f.parameters).run p = (.ok (handed texts), p) :=
    run_computeArguments_literals hvalidator haccepts p hmost hparameters
  rw [FunctionSymbol.nodeOfTexts, compute, harity, run_bind_ok hchecked, run_bind_ok hvalues]
  rfl

end Expr

-- ============================================================ the calculator

/-- Whatever the texts of a call contain but parentheses and commas, they arrive
as they are, without the blanks around them: the call is parsed to one node with
a literal for each, and when that is evaluated, the call is noted with these
texts, and its answer is what the implementation answers to them. -/
theorem Calculator.callOfTexts_handed {c : Calculator} (hsymbols : c.symbols.Unstructured)
    (htakes : c.symbols.TakesTexts) {f : FunctionSymbol}
    (hf : c.symbols.functions.get? f.name = some f) (hname : f.name ≠ "")
    (hparameters : f.OfTexts) {texts : List String} (hpayloads : ∀ text ∈ texts, IsPayload text)
    (hsome : 1 ≤ texts.length) (hleast : f.minArity ≤ texts.length)
    (hmost : texts.length ≤ f.maxArity)
    (hlength : ((f.callOfTexts texts).length : Int) ≤ c.limits.expressionLength)
    (hwithin : Tree.Within c.limits ⟨f.callOfTexts texts, f.nodeOfTexts texts⟩) :
    c.parse (f.callOfTexts texts) = .ok ⟨f.callOfTexts texts, f.nodeOfTexts texts⟩
      ∧ ∀ (journal : Journal) (answer : Except Fault Value) (draws : Draws),
        (f.implementation (handed texts) ((c.environment (f.callOfTexts texts)).callContext 0)).run
          journal.draws = (answer, draws) →
        ∃ memo, ((Node.root ⟨f.callOfTexts texts, f.nodeOfTexts texts⟩).evaluate
            (c.environment (f.callOfTexts texts))).run { journal }
          = (answer, ⟨memo,
              { draws
                invocations := journal.invocations ++ [⟨f, handed texts⟩]
                warnings := journal.warnings }⟩) := by
  constructor
  · exact Tree.ofSource_callOfTexts hsymbols htakes c.units hf hname hparameters
      (List.length_pos_iff.1 hsome) hpayloads hmost hlength hwithin
  · intro journal answer draws hanswer
    obtain ⟨validator, hvalidator, haccepts⟩ := htakes
    obtain ⟨found, after, hroot, hcompute, -⟩ := Node.tracks_root
      (c.environment (f.callOfTexts texts)) ⟨f.callOfTexts texts, f.nodeOfTexts texts⟩
      { journal } rfl
    have hrun := hcompute Memo.fresh
    rw [Expr.run_compute_nodeOfTexts hvalidator haccepts hparameters hleast hmost,
      Evaluation.run_drawing hanswer] at hrun
    obtain ⟨rfl, hafter⟩ := Prod.mk.inj hrun
    refine ⟨after.memo, hroot.trans (congrArg (Prod.mk answer) ?_)⟩
    exact congrArg (Progress.mk after.memo) (congrArg Progress.journal hafter).symm

/-- A function of a text and perhaps another. -/
def joining : FunctionSymbol :=
  { name := "join"
    implementation := Implementation.join "|"
    parameters := [{ type := Parameter.string }, { type := Parameter.string, mode := .optional }] }

/-- The calculator that knows this function besides the standard ones. -/
def joiningCalculator : Calculator :=
  .of (SymbolTable.standard.addFunction joining) none {}

/-- Operators, signs, units and the name of another function are handed on as
they are. -/
theorem joiningCalculator_handed :
    joiningCalculator.parse "join( 1 + max -2cm ,50% *)"
        = .ok ⟨"join( 1 + max -2cm ,50% *)",
            .call joining [.literal "1 + max -2cm" 6, .literal "50% *" 20] 0⟩
      ∧ ∃ memo, ((Node.root ⟨"join( 1 + max -2cm ,50% *)",
            .call joining [.literal "1 + max -2cm" 6, .literal "50% *" 20] 0⟩).evaluate
            (joiningCalculator.environment "join( 1 + max -2cm ,50% *)")).run
              { journal := { draws := { dice := .lowest } } }
          = (.ok (.text "1 + max -2cm|50% *"), ⟨memo,
              { draws := { dice := .lowest }
                invocations := [⟨joining, [.text "1 + max -2cm", .text "50% *"]⟩] }⟩) := by
  have hsource : joining.callOfTexts [" 1 + max -2cm ", "50% *"]
      = "join( 1 + max -2cm ,50% *)" := by
    decide +kernel
  have hnode : joining.nodeOfTexts [" 1 + max -2cm ", "50% *"]
      = .call joining [.literal "1 + max -2cm" 6, .literal "50% *" 20] 0 :=
    rfl
  have hsymbols : joiningCalculator.symbols.Unstructured :=
    ⟨by decide +kernel, by decide +kernel⟩
  have hpayloads : ∀ text ∈ [" 1 + max -2cm ", "50% *"], IsPayload text := by
    decide +kernel
  have hparameters : joining.OfTexts := by
    unfold FunctionSymbol.OfTexts
    decide
  have hwithin : Tree.Within joiningCalculator.limits
      ⟨joining.callOfTexts [" 1 + max -2cm ", "50% *"],
        joining.nodeOfTexts [" 1 + max -2cm ", "50% *"]⟩ := by
    refine ⟨by decide, by decide, ?_⟩
    rw [hnode, Expr.callsWithin_call]
    simp [Expr.AllCallsWithin, Expr.CallsWithin, Expr.preorder, joiningCalculator, Calculator.of,
      Limits.standard]
  obtain ⟨hparse, hevaluate⟩ := Calculator.callOfTexts_handed (c := joiningCalculator) hsymbols
    ⟨.string, rfl, fun _ => rfl⟩ rfl (by decide) hparameters hpayloads (by decide) (by decide)
    (by decide) (by decide +kernel) hwithin
  rw [hsource, hnode] at hparse hevaluate
  exact ⟨hparse, hevaluate _ _ _ rfl⟩

end UnitCalc
