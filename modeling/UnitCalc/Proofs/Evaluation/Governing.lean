/-
Which parameter an argument belongs to.

While a source is read the parameters are tried in turn, and an optional one
that does not accept the text so far is passed over: the argument belongs to
the first that accepts it (`acceptor?`). When the call is evaluated, arguments
and parameters are paired by their places. The two disagree about a single
argument exactly if it was taken by a parameter behind the first, and then the
call is refused for the type of an argument that was read as it should be
(`answer_taken_call`).

# Between the two

* `acceptedBy_eq`: what goes on while it is read is what has an acceptor.
* `acceptor?_trimStart`: it does not matter for the built-in tests whether the
  blanks in front of the text are there, as they are while it is read.
* `acceptor?_cons`: the first parameter accepts a text exactly if it is the
  acceptor, and that is what the evaluation asks.
* `exists_acceptor`: a literal inside of a call was taken by a parameter.

The tree in the last part of the result is that of the source when the call is
all there is to it.
-/
import UnitCalc.Evaluation.Outcome
import UnitCalc.Proofs.Evaluation.Combining
import UnitCalc.Proofs.Parsing.Complete
import UnitCalc.Proofs.Scan.Collecting

namespace UnitCalc

open Text

-- =============================================================== parameters

/-- The place of the parameter that an unfinished argument belongs to: the
parameters are tried in turn, up to the first required one. -/
def acceptor? (symbols : SymbolTable) (tentative : Value) :
    List Parameter → Except Fault (Option Nat)
  | [] => .ok none
  | parameter :: more => do
    let accepted ← match symbols.validators.get? parameter.type with
      | some validator => validator.accepts tentative
      | none => pure false
    if accepted then return some 0
    if parameter.isRequired then return none
    return (← acceptor? symbols tentative more).map (· + 1)

/-- An unfinished argument goes on as long as it belongs to a parameter. -/
theorem acceptedBy_eq (symbols : SymbolTable) (tentative : Value) (parameters : List Parameter) :
    acceptedBy symbols tentative parameters
      = (acceptor? symbols tentative parameters).map Option.isSome := by
  induction parameters with
  | nil => rfl
  | cons parameter more ih =>
      -- Both ask the validator first, and then go on in the same cases.
      have hgo : ∀ answer : Except Fault Bool,
          (do
            if ← answer then return true
            if parameter.isRequired then return false
            (acceptor? symbols tentative more).map Option.isSome)
          = Except.map Option.isSome (do
            if ← answer then return some 0
            if parameter.isRequired then return none
            return (← acceptor? symbols tentative more).map (· + 1)) := by
        intro answer
        cases answer with
        | error fault => rfl
        | ok accepted =>
            cases accepted with
            | true => rfl
            | false =>
                cases parameter.isRequired with
                | true => rfl
                | false =>
                    cases acceptor? symbols tentative more with
                    | error fault => rfl
                    | ok place? => cases place? <;> rfl
      rw [acceptedBy, acceptor?, ih]
      cases symbols.validators.get? parameter.type with
      | none => exact hgo (pure false)
      | some validator => exact hgo (validator.accepts tentative)

/-- The first parameter accepts just the arguments that belong to it. -/
theorem acceptor?_cons {symbols : SymbolTable} {tentative : Value} {parameter : Parameter}
    {more : List Parameter} {validator : Validator} {i : Nat}
    (hvalidator : symbols.validators.get? parameter.type = some validator)
    (h : acceptor? symbols tentative (parameter :: more) = .ok (some i)) :
    validator.accepts tentative = .ok (decide (i = 0)) := by
  rw [acceptor?, hvalidator] at h
  obtain ⟨accepted, haccepted, h⟩ := bind_eq_ok.1 h
  rw [haccepted]
  cases accepted with
  | true =>
      obtain rfl := Option.some.inj (Except.ok.inj h)
      rfl
  | false =>
      simp only [Bool.false_eq_true, ↓reduceIte] at h
      cases hrequired : parameter.isRequired with
      | true =>
          rw [hrequired] at h
          cases h
      | false =>
          simp only [hrequired, Bool.false_eq_true, ↓reduceIte] at h
          obtain ⟨place?, -, h⟩ := bind_eq_ok.1 h
          obtain ⟨j, -, rfl⟩ := Option.map_eq_some_iff.1 (pure_eq_ok.1 h)
          simp

-- ======================================================= the built-in tests

/-- A table with the built-in tests of numbers and of texts. -/
structure SymbolTable.BuiltinTests (t : SymbolTable) : Prop where
  numeric : t.validators.get? Parameter.numeric = some .numeric
  string : t.validators.get? Parameter.string = some .string

/-- A parameter for a number or for a text. -/
def Parameter.IsBuiltin (p : Parameter) : Prop :=
  p.type = Parameter.numeric ∨ p.type = Parameter.string

/-- Blanks in front of an argument do not change whose it is. -/
theorem acceptor?_trimStart {t : SymbolTable} (ht : t.BuiltinTests) {cs : List Char}
    {text : String} (h : trimStart cs = text.toList) {parameters : List Parameter}
    (hparameters : ∀ p ∈ parameters, p.IsBuiltin) :
    acceptor? t (.text (String.ofList cs)) parameters = acceptor? t (.text text) parameters := by
  have hnumber : Quantity.isNumberText cs = Quantity.isNumberText text.toList :=
    isNumberText_of_trimStart h
  induction parameters with
  | nil => rfl
  | cons parameter more ih =>
      rw [acceptor?, acceptor?, ih fun p hp => hparameters p (List.mem_cons_of_mem parameter hp)]
      rcases hparameters parameter List.mem_cons_self with htype | htype
      · rw [htype, ht.numeric]
        simp only [Validator.numeric, Value.isNumeric, String.toList_ofList, hnumber]
      · rw [htype, ht.string]
        rfl

-- ==================================================================== calls

namespace Expr

section Calls

variable {env : Environment} {f : FunctionSymbol} {text : String} {place : Nat}
  {parameter : Parameter} {more : List Parameter} {validator : Validator} {accepted : Bool}
  (hvalidator : env.validators.get? parameter.type = some validator)
include hvalidator

/-- A value passes the test of its parameter, or is refused for its type. -/
theorem run_checkArgument {v : Value} (haccepted : validator.accepts v = .ok accepted)
    (index : Nat) (p : Progress) :
    (env.checkArgument f index parameter v place).run p
      = (if accepted = true then .ok ()
        else .error (env.fault place (.functionContract f.name (.argumentType index v))), p) := by
  unfold Environment.checkArgument
  rw [hvalidator]
  simp only [haccepted]
  cases accepted <;> rfl

variable (haccepted : validator.accepts (.text text) = .ok accepted)
include haccepted

/-- One literal is paired with the first parameter. -/
theorem run_computeArguments_literal (hparameters : f.parameters = parameter :: more)
    (p : Progress) :
    (computeArguments env f 0 [literal text place] f.parameters).run p
      = (if accepted = true then .ok [.text text]
        else .error (env.fault place (.functionContract f.name (.argumentType 0 (.text text)))),
        p) := by
  have hliteral : ((literal text place).compute env).run p = (.ok (.text text), p) := rfl
  have hcheck : (env.checkArgument f 0 parameter (.text text) (literal text place).position).run p
      = _ := run_checkArgument hvalidator haccepted 0 p
  rw [hparameters, computeArguments, run_bind_ok hliteral]
  cases accepted with
  | true =>
      rw [run_bind_ok hcheck]
      rfl
  | false =>
      rw [run_bind_error hcheck]
      rfl

/-- A call of one literal answers what the implementation does, if the first
parameter accepts the literal and no other is required. -/
theorem answer_call_literal (hparameters : f.parameters = parameter :: more) (position : Nat)
    (journal : Journal) :
    (call f [literal text place] position).answer env journal
      = if 1 < f.minArity then
          .error (env.fault position
            (.functionContract f.name (.arity f.minArity f.maxArity 1)))
        else if accepted = true then
          ((f.implementation [.text text] (env.callContext position)).run journal.draws).1
        else
          .error (env.fault place (.functionContract f.name (.argumentType 0 (.text text)))) := by
  have hmost : ¬ f.maxArity < 1 := by
    unfold FunctionSymbol.maxArity
    rw [hparameters, List.length_cons]
    omega
  have harity : env.checkArity f position 1
      = if 1 < f.minArity then
          .error (env.fault position (.functionContract f.name (.arity f.minArity f.maxArity 1)))
        else .ok () := by
    unfold Environment.checkArity
    simp only [hmost, or_false]
  have hvalues : (computeArguments env f 0 [literal text place] f.parameters).run
      ⟨Memo.fresh, journal⟩ = _ :=
    run_computeArguments_literal hvalidator haccepted hparameters _
  rw [answer_eq_compute env journal _ Memo.fresh, compute, List.length_singleton, harity]
  by_cases hleast : 1 < f.minArity
  · rw [if_pos hleast, if_pos hleast]
    rfl
  · rw [if_neg hleast, if_neg hleast, run_bind_ok (Evaluation.run_ofExcept (.ok ()) _)]
    cases accepted with
    | true =>
        rw [run_bind_ok hvalues]
        rfl
    | false =>
        rw [run_bind_error hvalues]
        rfl

end Calls

end Expr

-- ================================================================== sources

/-- The segments of a call of one literal. -/
def callSegments (f : FunctionSymbol) (text : String) (position opening place closing : Nat) :
    List Segment :=
  [⟨.function, f.name, position⟩, ⟨.leftParen, "(", opening⟩, ⟨.literal, text, place⟩,
    ⟨.rightParen, ")", closing⟩]

variable {c : Calculator} {source text : String} {f : FunctionSymbol} {before more : List Segment}
  {position opening place closing : Nat}

/-- Inside of the parenthesis of a call its function is the innermost. -/
theorem framesOf_call {symbols : SymbolTable} (hf : symbols.functions.get? f.name = some f)
    (before : List Segment) :
    Scan.framesOf symbols
        (before ++ [⟨.function, f.name, position⟩] ++ [⟨.leftParen, "(", opening⟩])
      = { function := f, depth := 1 } :: Scan.framesOf symbols before := by
  rw [Scan.framesOf_concat, Scan.framesOf_concat]
  simp only [Scan.framesAfter, hf]

/-- A literal that the argument of a call takes belongs to some parameter. -/
theorem exists_acceptor (ht : c.symbols.BuiltinTests)
    (hf : c.symbols.functions.get? f.name = some f)
    (hparameters : ∀ p ∈ f.parameters, p.IsBuiltin)
    (hsegments : Segment.ofSource? (.of c.symbols c.units) c.limits source
      = .ok (before ++ callSegments f text position opening place closing ++ more))
    (htaken : Segment.Taken (.of c.symbols c.units) source ⟨.literal, text, place⟩) :
    ∃ i, acceptor? c.symbols (.text text) f.parameters = .ok (some i) := by
  -- The literal stands behind the parenthesis that opened the innermost frame.
  have hsplit : before ++ callSegments f text position opening place closing ++ more
      = before ++ [⟨.function, f.name, position⟩] ++ [⟨.leftParen, "(", opening⟩]
        ++ ⟨.literal, text, place⟩ :: ⟨.rightParen, ")", closing⟩ :: more := by
    simp [callSegments]
  rw [hsplit] at hsegments
  obtain ⟨tentative, htext, haccepted⟩ := htaken.acceptedBy hsegments rfl
    (framesOf_call hf before) (Nat.le_refl 1)
  have haccepted : acceptedBy c.symbols (.text (String.ofList tentative)) f.parameters = .ok true :=
    haccepted
  rw [acceptedBy_eq, acceptor?_trimStart ht htext hparameters] at haccepted
  obtain ⟨place?, hplace, hsome⟩ := map_eq_ok.1 haccepted
  obtain ⟨i, rfl⟩ := Option.isSome_iff_exists.1 hsome
  exact ⟨i, hplace⟩

/-- A call whose one literal was taken by the parameter at some place answers
what the implementation does, if that is the first and no other is required;
a literal taken by a later one is refused for its type. The expression is what
the call by itself is parsed to. -/
theorem answer_taken_call (ht : c.symbols.BuiltinTests)
    (hf : c.symbols.functions.get? f.name = some f)
    (hparameters : ∀ p ∈ f.parameters, p.IsBuiltin)
    (hsegments : Segment.ofSource? (.of c.symbols c.units) c.limits source
      = .ok (before ++ callSegments f text position opening place closing ++ more))
    (htaken : Segment.Taken (.of c.symbols c.units) source ⟨.literal, text, place⟩)
    (journal : Journal) :
    (∃ i, acceptor? c.symbols (.text text) f.parameters = .ok (some i)
      ∧ (Expr.call f [.literal text place] position).answer (c.environment source) journal
        = if 1 < f.minArity then
            .error ((c.environment source).fault position
              (.functionContract f.name (.arity f.minArity f.maxArity 1)))
          else if i = 0 then
            ((f.implementation [.text text] ((c.environment source).callContext position)).run
              journal.draws).1
          else
            .error ((c.environment source).fault place
              (.functionContract f.name (.argumentType 0 (.text text)))))
      ∧ (before = [] → more = [] →
        Tree.Within c.limits ⟨source, .call f [.literal text place] position⟩ →
        c.parse source = .ok ⟨source, .call f [.literal text place] position⟩) := by
  constructor
  · obtain ⟨i, hplace⟩ := exists_acceptor ht hf hparameters hsegments htaken
    refine ⟨i, hplace, ?_⟩
    cases hall : f.parameters with
    | nil =>
        rw [hall] at hplace
        cases hplace
    | cons parameter others =>
        rw [hall] at hplace
        obtain ⟨validator, hvalidator⟩ : ∃ validator,
            c.symbols.validators.get? parameter.type = some validator := by
          rcases hparameters parameter (hall ▸ List.mem_cons_self) with htype | htype
          · exact ⟨_, htype ▸ ht.numeric⟩
          · exact ⟨_, htype ▸ ht.string⟩
        have haccepted := acceptor?_cons hvalidator hplace
        rw [Expr.answer_call_literal hvalidator haccepted hall]
        simp only [decide_eq_true_eq]
  · -- Alone in its source the call is read by the grammar.
    rintro rfl rfl hwithin
    have hreads : Reads c.symbols (callSegments f text position opening place closing)
        (.call f [.literal text place] position) none :=
      .call rfl hf rfl (.one (.literal rfl)) rfl
    rw [List.nil_append, List.append_nil] at hsegments
    unfold Calculator.parse Tree.ofSource?
    rw [hsegments]
    exact Prescribed.ofSegments ⟨none, hreads⟩ hwithin

/-- A function of a number that may be left out and a text. -/
def labelled : FunctionSymbol :=
  { name := "f"
    implementation := Numeric.deterministic fun arguments =>
      .ok (.number (Float.ofNat arguments.length))
    parameters := [{ mode := .optional }, { type := Parameter.string }] }

/-- The calculator that knows this function besides the standard ones. -/
def labelledCalculator : Calculator :=
  .of (SymbolTable.standard.addFunction labelled) none {}

/-- A number is taken by the first parameter, and the call is carried out. -/
theorem answer_taken_number :
    Segment.Taken (.of labelledCalculator.symbols labelledCalculator.units) "f(5)"
        ⟨.literal, "5", 2⟩
      ∧ (Expr.call labelled [.literal "5" 2] 0).answer (labelledCalculator.environment "f(5)")
          { draws := { dice := .lowest } } = .ok (.number 1.0) := by
  have hsegments : Segment.ofSource? (.of labelledCalculator.symbols labelledCalculator.units)
      labelledCalculator.limits "f(5)" = .ok ([] ++ callSegments labelled "5" 0 1 2 3 ++ []) := by
    decide +kernel
  have htaken : Segment.Taken (.of labelledCalculator.symbols labelledCalculator.units) "f(5)"
      ⟨.literal, "5", 2⟩ := by
    decide +kernel
  have hbuiltin : ∀ p ∈ labelled.parameters, p.IsBuiltin := by
    unfold Parameter.IsBuiltin
    decide
  refine ⟨htaken, ?_⟩
  obtain ⟨⟨i, hplace, hanswer⟩, -⟩ := answer_taken_call ⟨rfl, rfl⟩ rfl hbuiltin hsegments htaken
    { draws := { dice := .lowest } }
  have hfirst : acceptor? labelledCalculator.symbols (.text "5") labelled.parameters
      = .ok (some 0) := by decide +kernel
  rw [hplace] at hfirst
  obtain rfl := Option.some.inj (Except.ok.inj hfirst)
  rw [hanswer]
  rfl

/-- A text is taken by the second parameter, and the call is refused because
the text is no number. -/
theorem demand_taken_text :
    Segment.ofSource? (.of labelledCalculator.symbols labelledCalculator.units)
        labelledCalculator.limits "f(hello)" = .ok (callSegments labelled "hello" 0 1 2 7)
      ∧ Segment.Taken (.of labelledCalculator.symbols labelledCalculator.units) "f(hello)"
          ⟨.literal, "hello", 2⟩
      ∧ ((labelledCalculator.demand "f(hello)").run
          { journal := { draws := { dice := .lowest } } }).1
        = .error (.of (.functionContract "f" (.argumentType 0 (.text "hello"))) (some 2)
            (some "f(hello)")) := by
  decide +kernel

end UnitCalc
