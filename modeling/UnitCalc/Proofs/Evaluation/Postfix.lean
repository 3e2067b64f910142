/-
Postfix programs.

A `Machine` carries out a list of instructions with nothing but a stack of
values: a value is put on it, an operator takes the two on top, a call as many
as it says, checks their number and each of them, and calls the implementation.
On the instructions that a tree was built of it does what the evaluation of the
tree does (`Calculator.evaluate_iff_run`): it comes to the same value whenever
one of them comes to any, and both make the same calls in the same order, one
for each call instruction.

# Following

The machine follows the plain recursion of `Expr.compute`, part by part and
with anything on the stack below and any instructions behind (`Follows`). A
part whose computation succeeds pushes its value (`Pushes`), and one that fails
stops the machine (`Stops`); both are kept under more instructions, which is
what the induction on the expression is made of. The listing of a tree in
postorder is the program it was built of (`Proofs/Expr/Rebuild`).

# Where the two are not in step

At a call the recursion checks the number of arguments before any of them is
computed and each argument right behind its value; the machine checks all of
that behind the last one. So where a check fails the machine may fail
elsewhere, or later, and only that it fails is claimed: `Prepared` keeps the
arguments whose values were refused apart from those that have none. The
warnings of the two come in another order, so a machine gives none.

# Calls

`run_calls` counts the calls of a run by its instructions, whatever the tree:
a step makes one if the instruction is a call (`step_calls`).
-/
import UnitCalc.Evaluation.Outcome
import UnitCalc.Proofs.Evaluation.Combining
import UnitCalc.Proofs.Expr.Rebuild

namespace UnitCalc

open Evaluation

-- ============================================================== the machine

/-- A postfix program being carried out: the values that wait for their
operator or call, the last one in front, and the draws and calls made. -/
structure Machine where
  stack : List Value := []
  draws : Draws
  invocations : List Invocation := []

namespace Machine

/-- Checks an argument against its parameter; a parameter of an unknown type
takes anything. -/
def accept (env : Environment) (function : FunctionSymbol) (position index : Nat)
    (parameter : Parameter) (v : Value) : Except Fault Unit :=
  match env.validators.get? parameter.type with
  | none => .ok ()
  | some validator => do
    if !(← validator.accepts v) then
      throw (env.fault position (.functionContract function.name (.argumentType index v)))

/-- Checks the arguments of a call, the first of which has an index. -/
def acceptAll (env : Environment) (function : FunctionSymbol) (position index : Nat) :
    List Value → List Parameter → Except Fault Unit
  | v :: values, parameter :: parameters => do
    accept env function position index parameter v
    acceptAll env function position (index + 1) values parameters
  | _, _ => .ok ()

/-- Calls an implementation, which is noted, and puts its answer on the
stack. -/
def invoke (env : Environment) (function : FunctionSymbol) (position : Nat)
    (arguments : List Value) (m : Machine) : Except Fault Machine :=
  match (function.implementation arguments (env.callContext position)).run m.draws with
  | (.error fault, _) => .error fault
  | (.ok v, draws) =>
    .ok { stack := v :: m.stack, draws, invocations := m.invocations ++ [⟨function, arguments⟩] }

/-- Carries out one instruction. -/
def step (env : Environment) (t : SymbolTable) (m : Machine) :
    Instruction → Except Fault Machine
  | .value text _ => .ok { m with stack := .text text :: m.stack }
  | .operator symbol position =>
    match m.stack with
    | right :: left :: below => do
      let operator ← t.operators.require symbol
      let v ← env.combine operator position position position left right
      return { m with stack := v :: below }
    | _ => .error .stackUnderflow
  | .call name position count =>
    if m.stack.length < count then .error .stackUnderflow
    else do
      let function ← t.functions.require name
      let arguments := (m.stack.take count).reverse
      env.checkArity function position count
      acceptAll env function position 0 arguments function.parameters
      invoke env function position arguments { m with stack := m.stack.drop count }

/-- Carries out instructions, one after the other. -/
def run (env : Environment) (t : SymbolTable) : Machine → List Instruction → Except Fault Machine
  | m, [] => .ok m
  | m, i :: more => do run env t (← step env t m i) more

end Machine

/-- The name of the called function, and the number of its arguments. -/
def Invocation.callee (i : Invocation) : String × Nat :=
  (i.function.name, i.arguments.length)

/-- The function that an instruction calls, and the number of its arguments, if
it is a call. -/
def Instruction.callee? : Instruction → Option (String × Nat)
  | .call name _ count => some (name, count)
  | _ => none

/-- A machine that stands where an evaluation does, with values on its
stack. -/
def Progress.machine (p : Progress) (stack : List Value) : Machine :=
  ⟨stack, p.journal.draws, p.journal.invocations⟩

-- ================================================================== the steps

namespace Machine

variable {env : Environment} {t : SymbolTable} {m m' : Machine} {i : Instruction}
  {more : List Instruction} {function : FunctionSymbol} {position index : Nat}

theorem run_cons (h : step env t m i = .ok m') :
    run env t m (i :: more) = run env t m' more := by
  rw [run, h]
  rfl

theorem run_cons_error {fault : Fault} (h : step env t m i = .error fault) :
    run env t m (i :: more) = .error fault := by
  rw [run, h]
  rfl

/-- Where an operator finds its operands, it combines them. -/
theorem step_operator {operator : OperatorSymbol} {left right : Value} {below : List Value}
    (hknown : t.operators.get? operator.symbol = some operator)
    (hstack : m.stack = right :: left :: below) :
    step env t m (.operator operator.symbol position)
      = (env.combine operator position position position left right).map
        fun v => { m with stack := v :: below } := by
  have hrequired := Registry.require_eq_ok.2 hknown
  simp only [step, hstack, hrequired, bind, Except.bind]
  cases env.combine operator position position position left right <;> rfl

/-- Where a call finds its arguments, it checks and makes it. -/
theorem step_call {arguments below : List Value}
    (hknown : t.functions.get? function.name = some function)
    (hstack : m.stack = arguments.reverse ++ below) :
    step env t m (.call function.name position arguments.length) = (do
      env.checkArity function position arguments.length
      acceptAll env function position 0 arguments function.parameters
      invoke env function position arguments { m with stack := below }) := by
  have hrequired := Registry.require_eq_ok.2 hknown
  have htake : (arguments.reverse ++ below).take arguments.length = arguments.reverse :=
    List.take_left' List.length_reverse
  have hdrop : (arguments.reverse ++ below).drop arguments.length = below :=
    List.drop_left' List.length_reverse
  have hlength : ¬ (arguments.reverse ++ below).length < arguments.length := by
    rw [List.length_append, List.length_reverse]
    omega
  rw [step, hstack, if_neg hlength, hrequired, htake, hdrop, List.reverse_reverse]
  rfl

end Machine

/-- The positions that errors are reported at have no part in the value. -/
theorem Environment.combine_position {env : Environment} {operator : OperatorSymbol}
    {leftPosition rightPosition leftPosition' rightPosition' position : Nat}
    {left right v : Value}
    (h : env.combine operator leftPosition rightPosition position left right = .ok v) :
    env.combine operator leftPosition' rightPosition' position left right = .ok v := by
  unfold combine at h ⊢
  obtain ⟨power, hpower, h⟩ := bind_eq_ok.1 h
  obtain ⟨x, hx, h⟩ := bind_eq_ok.1 h
  obtain ⟨y, hy, h⟩ := bind_eq_ok.1 h
  refine bind_eq_ok.2 ⟨power, hpower, bind_eq_ok.2 ⟨x, ?_, bind_eq_ok.2 ⟨y, ?_, h⟩⟩⟩
  · exact numberOf_iff.2 (numberOf_iff.1 hx)
  · exact numberOf_iff.2 (numberOf_iff.1 hy)

-- ============================================================ following a part

namespace Machine

variable {env : Environment} {t : SymbolTable} {p middle after : Progress}
  {instructions more : List Instruction} {values values' : List Value} {function : FunctionSymbol}
  {position index : Nat}

/-- Some instructions put values on the stack, whatever is below there and
whatever comes behind, and take the machine to where a computation stands. -/
def Pushes (env : Environment) (t : SymbolTable) (p : Progress) (instructions : List Instruction)
    (values : List Value) (after : Progress) : Prop :=
  ∀ stack more, run env t (p.machine stack) (instructions ++ more)
    = run env t (after.machine (values.reverse ++ stack)) more

/-- Some instructions fail, whatever is on the stack and whatever comes
behind. -/
def Stops (env : Environment) (t : SymbolTable) (p : Progress)
    (instructions : List Instruction) : Prop :=
  ∀ stack more, ∃ fault, run env t (p.machine stack) (instructions ++ more) = .error fault

theorem Pushes.append (h : Pushes env t p instructions values middle)
    (h' : Pushes env t middle more values' after) :
    Pushes env t p (instructions ++ more) (values ++ values') after := by
  intro stack rest
  rw [List.append_assoc, h, h', List.reverse_append, List.append_assoc]

theorem Pushes.stops (h : Pushes env t p instructions values middle)
    (h' : Stops env t middle more) : Stops env t p (instructions ++ more) := by
  intro stack rest
  rw [List.append_assoc, h]
  exact h' _ rest

theorem Stops.append (h : Stops env t p instructions) (more : List Instruction) :
    Stops env t p (instructions ++ more) := by
  intro stack rest
  rw [List.append_assoc]
  exact h stack (more ++ rest)

/-- An instruction behind takes the values off and puts another one on. -/
theorem Pushes.snoc {i : Instruction} {v : Value} (h : Pushes env t p instructions values middle)
    (hstep : ∀ stack, step env t (middle.machine (values.reverse ++ stack)) i
      = .ok (after.machine (v :: stack))) : Pushes env t p (instructions ++ [i]) [v] after := by
  intro stack rest
  rw [List.append_assoc, h]
  exact run_cons (hstep stack)

/-- Or it fails on them. -/
theorem Pushes.snoc_stops {i : Instruction} (h : Pushes env t p instructions values middle)
    (hstep : ∀ stack, ∃ fault,
      step env t (middle.machine (values.reverse ++ stack)) i = .error fault) :
    Stops env t p (instructions ++ [i]) := by
  intro stack rest
  obtain ⟨fault, hfails⟩ := hstep stack
  rw [List.append_assoc, h]
  exact ⟨fault, run_cons_error hfails⟩

/-- What a machine does with some instructions where a computation ends in a
certain way. -/
inductive Follows (env : Environment) (t : SymbolTable) (p : Progress)
    (instructions : List Instruction) : Except Fault Value × Progress → Prop
  | pushes {v : Value} {after : Progress} (h : Pushes env t p instructions [v] after) :
      Follows env t p instructions (.ok v, after)
  | stops {fault : Fault} {after : Progress} (h : Stops env t p instructions) :
      Follows env t p instructions (.error fault, after)

-- ================================================================== arguments

/-- Each of some expressions is followed, from wherever it is computed. -/
def FollowsAll (env : Environment) (t : SymbolTable) (es : List Expr) : Prop :=
  ∀ e ∈ es, ∀ p, Follows env t p e.postorder ((e.compute env).run p)

/-- Unless it stops, a machine puts one value for each of some expressions on
its stack, whatever becomes of them. -/
theorem FollowsAll.pushes_or_stops {es : List Expr} (h : FollowsAll env t es) :
    ∀ p : Progress,
      (∃ values after, values.length = es.length
        ∧ Pushes env t p (Expr.postorderAll es) values after)
      ∨ Stops env t p (Expr.postorderAll es) := by
  induction es with
  | nil => exact fun p => Or.inl ⟨[], p, rfl, fun _ _ => rfl⟩
  | cons e es ih =>
      intro p
      have hfirst := h e List.mem_cons_self p
      rw [Expr.postorderAll]
      generalize (e.compute env).run p = result at hfirst
      cases hfirst with
      | stops hstops => exact Or.inr (hstops.append _)
      | @pushes v middle hpushes =>
          rcases ih (fun e' he' => h e' (List.mem_cons_of_mem e he')) middle with
            ⟨values, after, hlength, hmore⟩ | hstops
          · exact Or.inl ⟨[v] ++ values, after, congrArg Nat.succ hlength, hpushes.append hmore⟩
          · exact Or.inr (hpushes.stops hstops)

/-- The check of an argument ends alike in both. -/
theorem checkArgument_ends (env : Environment) (function : FunctionSymbol)
    (index position place : Nat) (parameter : Parameter) (v : Value) (p : Progress) :
    (∃ after, (env.checkArgument function index parameter v place).run p = (.ok (), after)
        ∧ (∀ stack, after.machine stack = p.machine stack)
        ∧ accept env function position index parameter v = .ok ())
      ∨ ∃ fault fault' after,
        (env.checkArgument function index parameter v place).run p = (.error fault, after)
        ∧ accept env function position index parameter v = .error fault' := by
  unfold Environment.checkArgument accept
  cases env.validators.get? parameter.type with
  | none => exact Or.inl ⟨_, rfl, fun _ => rfl, rfl⟩
  | some validator =>
      simp only
      cases validator.accepts v with
      | error fault => exact Or.inr ⟨fault, fault, p, rfl, rfl⟩
      | ok accepted =>
          cases accepted with
          | true => exact Or.inl ⟨p, rfl, fun _ => rfl, rfl⟩
          | false => exact Or.inr ⟨_, _, p, rfl, rfl⟩

theorem acceptAll_cons {parameter : Parameter} {parameters : List Parameter} {v : Value}
    (h : accept env function position index parameter v = .ok ()) :
    acceptAll env function position index (v :: values) (parameter :: parameters)
      = acceptAll env function position (index + 1) values parameters := by
  rw [acceptAll, h]
  rfl

theorem acceptAll_cons_error {parameter : Parameter} {parameters : List Parameter} {v : Value}
    {fault : Fault} (h : accept env function position index parameter v = .error fault) :
    acceptAll env function position index (v :: values) (parameter :: parameters)
      = .error fault := by
  rw [acceptAll, h]
  rfl

/-- What becomes of the arguments of a call: their values pass the checks, or
they do not, or the machine stops at one of them. -/
inductive Prepared (env : Environment) (t : SymbolTable) (function : FunctionSymbol)
    (position index : Nat) (es : List Expr) (parameters : List Parameter) (p : Progress) :
    Except Fault (List Value) × Progress → Prop
  | admitted {values : List Value} {after : Progress} (length : values.length = es.length)
      (pushes : Pushes env t p (Expr.postorderAll es) values after)
      (checks : acceptAll env function position index values parameters = .ok ()) :
      Prepared env t function position index es parameters p (.ok values, after)
  | refused {values : List Value} {last after : Progress} {fault fault' : Fault}
      (length : values.length = es.length)
      (pushes : Pushes env t p (Expr.postorderAll es) values last)
      (checks : acceptAll env function position index values parameters = .error fault') :
      Prepared env t function position index es parameters p (.error fault, after)
  | stopped {after : Progress} {fault : Fault} (stops : Stops env t p (Expr.postorderAll es)) :
      Prepared env t function position index es parameters p (.error fault, after)

/-- The arguments of a call that has a parameter for each. -/
theorem FollowsAll.prepared {es : List Expr} (h : FollowsAll env t es) :
    ∀ {parameters : List Parameter} (index : Nat) (p : Progress),
      es.length ≤ parameters.length →
      Prepared env t function position index es parameters p
        ((Expr.computeArguments env function index es parameters).run p) := by
  induction es with
  | nil =>
      intro parameters index p _
      rw [Expr.computeArguments]
      · exact .admitted rfl (fun _ _ => rfl) (by rw [acceptAll]; simp)
      all_goals simp
  | cons e es ih =>
      intro parameters index p hlength
      have hmore : FollowsAll env t es := fun e' he' => h e' (List.mem_cons_of_mem e he')
      have hfirst := h e List.mem_cons_self p
      cases parameters with
      | nil => simp at hlength
      | cons parameter parameters =>
          rw [Expr.computeArguments]
          obtain ⟨answer, middle, hcompute⟩ : ∃ answer middle,
              (e.compute env).run p = (answer, middle) := ⟨_, _, rfl⟩
          rw [hcompute] at hfirst
          cases hfirst with
          | stops hstops =>
              rw [run_bind_error hcompute]
              exact .stopped (hstops.append _)
          | @pushes v _ hpushes =>
              rw [run_bind_ok hcompute]
              rcases checkArgument_ends env function index position e.position parameter v middle
                with ⟨checked, hchecked, hsame, haccept⟩ | ⟨fault, fault', last, hchecked, haccept⟩
              · rw [run_bind_ok hchecked]
                have hpushes' : Pushes env t p e.postorder [v] checked := by
                  intro stack more
                  rw [hpushes, hsame]
                obtain ⟨answer, after, hrest⟩ : ∃ answer after,
                    (Expr.computeArguments env function (index + 1) es parameters).run checked
                      = (answer, after) := ⟨_, _, rfl⟩
                have hprepared := ih hmore (index + 1) checked (Nat.le_of_succ_le_succ hlength)
                rw [hrest] at hprepared
                cases hprepared with
                | @admitted values _ hlen hpush hchecks =>
                    rw [run_bind_ok hrest]
                    exact .admitted (congrArg Nat.succ hlen) (hpushes'.append hpush)
                      ((acceptAll_cons haccept).trans hchecks)
                | @refused values last _ fault fault' hlen hpush hchecks =>
                    rw [run_bind_error hrest]
                    have hcount : (v :: values).length = (e :: es).length :=
                      congrArg Nat.succ hlen
                    exact .refused hcount (hpushes'.append hpush)
                      ((acceptAll_cons haccept).trans hchecks)
                | stopped hstops =>
                    rw [run_bind_error hrest]
                    exact .stopped (hpushes'.stops hstops)
              · rw [run_bind_error hchecked]
                -- The recursion has failed by now, but the machine still goes through the other
                -- arguments before it checks this one.
                rcases hmore.pushes_or_stops middle with ⟨values, after, hlen, hpush⟩ | hstops
                · have hcount : (v :: values).length = (e :: es).length :=
                    congrArg Nat.succ hlen
                  exact .refused hcount (hpushes.append hpush) (acceptAll_cons_error haccept)
                · exact .stopped (hpushes.stops hstops)

-- ================================================================ expressions

theorem literal_follows (text : String) (place : Nat) (p : Progress) :
    Follows env t p (Expr.literal text place).postorder
      (((Expr.literal text place).compute env).run p) :=
  .pushes fun _ _ => run_cons rfl

/-- An operator follows its operands. -/
theorem binary_follows {operator : OperatorSymbol} {left right : Expr}
    (hknown : t.operators.get? operator.symbol = some operator)
    (hleft : ∀ p, Follows env t p left.postorder ((left.compute env).run p))
    (hright : ∀ p, Follows env t p right.postorder ((right.compute env).run p)) (p : Progress) :
    Follows env t p (Expr.binary operator left right position).postorder
      (((Expr.binary operator left right position).compute env).run p) := by
  rw [Expr.postorder, Expr.compute]
  obtain ⟨answer, middle, hfirst⟩ : ∃ answer middle,
      (left.compute env).run p = (answer, middle) := ⟨_, _, rfl⟩
  have hends := hleft p
  rw [hfirst] at hends
  cases hends with
  | stops hstops =>
      rw [run_bind_error hfirst]
      exact .stops ((hstops.append _).append _)
  | @pushes v _ hpushes =>
      rw [run_bind_ok hfirst]
      obtain ⟨answer, after, hsecond⟩ : ∃ answer after,
          (right.compute env).run middle = (answer, after) := ⟨_, _, rfl⟩
      have hends := hright middle
      rw [hsecond] at hends
      cases hends with
      | stops hstops =>
          rw [run_bind_error hsecond]
          exact .stops ((hpushes.stops hstops).append _)
      | @pushes w _ hpushes' =>
          rw [run_bind_ok hsecond, run_ofExcept]
          have hoperands := hpushes.append hpushes'
          have hstep : ∀ stack, step env t (after.machine (w :: v :: stack))
              (.operator operator.symbol position)
              = (env.combine operator position position position v w).map
                fun u => after.machine (u :: stack) := fun stack => step_operator hknown rfl
          cases hcombine : env.combine operator left.position right.position position v w with
          | ok u =>
              refine .pushes (hoperands.snoc fun stack => (hstep stack).trans ?_)
              rw [Environment.combine_position hcombine]
              rfl
          | error fault =>
              refine .stops (hoperands.snoc_stops fun stack => ?_)
              -- Only the place of the error depends on the positions, not whether there is one.
              cases hother : env.combine operator position position position v w with
              | ok u =>
                  rw [Environment.combine_position hother] at hcombine
                  cases hcombine
              | error fault' =>
                  refine ⟨fault', (hstep stack).trans ?_⟩
                  rw [hother]
                  rfl

/-- An implementation is called alike in both. -/
theorem invoke_ends (env : Environment) (function : FunctionSymbol) (position : Nat)
    (arguments : List Value) (p : Progress) :
    (∃ v after, (do
          note ⟨function, arguments⟩
          drawing (function.implementation arguments (env.callContext position))).run p
          = (.ok v, after)
        ∧ ∀ stack, invoke env function position arguments (p.machine stack)
          = .ok (after.machine (v :: stack)))
      ∨ ∃ fault after, (do
          note ⟨function, arguments⟩
          drawing (function.implementation arguments (env.callContext position))).run p
          = (.error fault, after)
        ∧ ∀ stack, invoke env function position arguments (p.machine stack) = .error fault := by
  obtain ⟨answer, draws, himplementation⟩ : ∃ answer draws,
      (function.implementation arguments (env.callContext position)).run p.journal.draws
        = (answer, draws) := ⟨_, _, rfl⟩
  have hcalled : (do
      note ⟨function, arguments⟩
      drawing (function.implementation arguments (env.callContext position))).run p
      = (answer, ⟨p.memo, { p.journal with
          draws
          invocations := p.journal.invocations ++ [⟨function, arguments⟩] }⟩) := by
    rw [run_bind_ok (rfl : (note ⟨function, arguments⟩).run p = (.ok (), _))]
    show drawing _ _ = _
    unfold drawing
    simp only [himplementation]
  rw [hcalled]
  unfold invoke
  simp only [Progress.machine, himplementation]
  cases answer with
  | ok v => exact Or.inl ⟨v, _, rfl, fun _ => rfl⟩
  | error fault => exact Or.inr ⟨fault, _, rfl, fun _ => rfl⟩

/-- A call follows its arguments. -/
theorem call_follows {arguments : List Expr}
    (hknown : t.functions.get? function.name = some function)
    (harguments : FollowsAll env t arguments) (p : Progress) :
    Follows env t p (Expr.call function arguments position).postorder
      (((Expr.call function arguments position).compute env).run p) := by
  have hstep : ∀ (values : List Value) (q : Progress) (stack : List Value),
      values.length = arguments.length →
      step env t (q.machine (values.reverse ++ stack))
        (.call function.name position arguments.length) = (do
          env.checkArity function position arguments.length
          acceptAll env function position 0 values function.parameters
          invoke env function position values (q.machine stack)) := by
    intro values q stack hlength
    rw [← hlength]
    exact step_call hknown rfl
  rw [Expr.postorder, Expr.compute]
  cases harity : env.checkArity function position arguments.length with
  | error fault =>
      rw [run_bind_error (run_ofExcept (.error fault) p)]
      -- The recursion fails before its arguments; the machine computes them first.
      rcases harguments.pushes_or_stops p with ⟨values, after, hlength, hpushes⟩ | hstops
      · refine .stops (hpushes.snoc_stops fun stack => ⟨fault, ?_⟩)
        rw [hstep values after stack hlength, harity]
        rfl
      · exact .stops (hstops.append _)
  | ok _ =>
      rw [run_bind_ok (run_ofExcept (.ok ()) p)]
      obtain ⟨answer, middle, hcompute⟩ : ∃ answer middle,
          (Expr.computeArguments env function 0 arguments function.parameters).run p
            = (answer, middle) := ⟨_, _, rfl⟩
      have hprepared : Prepared env t function position 0 arguments function.parameters p _ :=
        harguments.prepared 0 p (Environment.le_of_checkArity harity)
      rw [hcompute] at hprepared
      cases hprepared with
      | stopped hstops =>
          rw [run_bind_error hcompute]
          exact .stops (hstops.append _)
      | @refused values last _ fault fault' hlength hpushes hchecks =>
          rw [run_bind_error hcompute]
          refine .stops (hpushes.snoc_stops fun stack => ⟨fault', ?_⟩)
          rw [hstep values last stack hlength, harity, hchecks]
          rfl
      | @admitted values _ hlength hpushes hchecks =>
          rw [run_bind_ok hcompute]
          have hinvoke : ∀ stack, step env t (middle.machine (values.reverse ++ stack))
              (.call function.name position arguments.length)
              = invoke env function position values (middle.machine stack) := by
            intro stack
            rw [hstep values middle stack hlength, harity, hchecks]
            rfl
          rcases invoke_ends env function position values middle with
            ⟨v, after, hcalled, hmade⟩ | ⟨fault, after, hcalled, hfails⟩
          · rw [hcalled]
            exact .pushes (hpushes.snoc fun stack => (hinvoke stack).trans (hmade stack))
          · rw [hcalled]
            exact .stops (hpushes.snoc_stops fun stack =>
              ⟨fault, (hinvoke stack).trans (hfails stack)⟩)

mutual

/-- An expression over a table is followed by its listing. -/
theorem follows (env : Environment) : ∀ e : Expr, e.Over t → ∀ p,
    Follows env t p e.postorder ((e.compute env).run p)
  | .literal text place, _, p => literal_follows text place p
  | .binary _ left right _, hover, p =>
      binary_follows hover.1 (follows env left hover.2.1) (follows env right hover.2.2) p
  | .call _ arguments _, hover, p =>
      call_follows hover.1 (followsAll env arguments hover.2) p

theorem followsAll (env : Environment) : ∀ es : List Expr, Expr.OverAll t es →
    FollowsAll env t es
  | [], _, _, he, _ => absurd he List.not_mem_nil
  | e :: es, hover, e', he, p =>
      (List.mem_cons.1 he).elim (fun heq => heq ▸ follows env e hover.1 p)
        fun hmem => followsAll env es hover.2 e' hmem p

end

-- ====================================================================== calls

theorem invoke_ok {arguments : List Value} {m m' : Machine}
    (h : invoke env function position arguments m = .ok m') :
    m'.invocations = m.invocations ++ [⟨function, arguments⟩] := by
  unfold invoke at h
  split at h
  · cases h
  · cases h
    rfl

/-- An instruction makes a call if it is one. -/
theorem step_calls {m m' : Machine} {i : Instruction} (h : step env t m i = .ok m') :
    ∃ calls, m'.invocations = m.invocations ++ calls
      ∧ calls.map Invocation.callee = i.callee?.toList := by
  cases i with
  | value text place =>
      cases h
      exact ⟨[], (List.append_nil _).symm, rfl⟩
  | operator symbol place =>
      rw [step] at h
      split at h
      · obtain ⟨operator, -, h⟩ := bind_eq_ok.1 h
        obtain ⟨v, -, h⟩ := bind_eq_ok.1 h
        cases h
        exact ⟨[], (List.append_nil _).symm, rfl⟩
      · cases h
  | call name place count =>
      rw [step] at h
      by_cases hcount : m.stack.length < count
      · rw [if_pos hcount] at h
        cases h
      · rw [if_neg hcount] at h
        obtain ⟨function, hrequired, h⟩ := bind_eq_ok.1 h
        obtain ⟨_, -, h⟩ := bind_eq_ok.1 h
        obtain ⟨_, -, h⟩ := bind_eq_ok.1 h
        have hname : function.name = name :=
          Registry.key_of_get? (Registry.require_eq_ok.1 hrequired)
        have hlength : (m.stack.take count).reverse.length = count := by
          rw [List.length_reverse, List.length_take]
          omega
        have hmade := invoke_ok h
        refine ⟨_, hmade, ?_⟩
        rw [List.map_singleton, Invocation.callee, hname, hlength]
        rfl

/-- A run makes a call for each instruction that is one. -/
theorem run_calls : ∀ {instructions : List Instruction} {m m' : Machine},
    run env t m instructions = .ok m' →
    ∃ calls, m'.invocations = m.invocations ++ calls
      ∧ calls.map Invocation.callee = instructions.filterMap Instruction.callee? := by
  intro instructions
  induction instructions with
  | nil =>
      intro m m' h
      cases h
      exact ⟨[], (List.append_nil _).symm, rfl⟩
  | cons i more ih =>
      intro m m' h
      rw [run] at h
      obtain ⟨middle, hstep, h⟩ := bind_eq_ok.1 h
      obtain ⟨calls, hmade, hcalls⟩ := step_calls hstep
      obtain ⟨later, hmade', hlater⟩ := ih h
      refine ⟨calls ++ later, by rw [hmade', hmade, List.append_assoc], ?_⟩
      rw [List.map_append, hcalls, hlater]
      cases hcallee : i.callee? <;> simp [hcallee]

end Machine

-- ================================================================ whole trees

/-- The instructions of a tree, carried out from nothing, leave its value
alone on the stack if it has one, and fail otherwise. -/
theorem Tree.follows {t : SymbolTable} {tree : Tree} (hover : tree.child.Over t)
    (env : Environment) (journal : Journal) :
    (∃ v after, ((Node.root tree).evaluate env).run { journal } = (.ok v, after)
        ∧ Machine.run env t ⟨[], journal.draws, journal.invocations⟩ tree.child.postorder
          = .ok (after.machine [v]))
      ∨ (∃ fault after, ((Node.root tree).evaluate env).run { journal } = (.error fault, after))
        ∧ ∃ fault, Machine.run env t ⟨[], journal.draws, journal.invocations⟩ tree.child.postorder
          = .error fault := by
  obtain ⟨answer, after, hevaluate, hcompute, -⟩ := Node.tracks_root env tree { journal } rfl
  have hfollows := Machine.follows env tree.child hover { journal }
  rw [hcompute Memo.fresh] at hfollows
  cases hfollows with
  | @pushes v _ hpushes =>
      refine Or.inl ⟨v, after, hevaluate, ?_⟩
      have hrun := hpushes [] []
      rwa [List.append_nil] at hrun
  | @stops fault _ hstops =>
      refine Or.inr ⟨⟨fault, after, hevaluate⟩, ?_⟩
      obtain ⟨fault', hrun⟩ := hstops [] []
      rw [List.append_nil] at hrun
      exact ⟨fault', hrun⟩

/-- A parsed source is evaluated as its postfix program is carried out: to the
same value, if to any, with the same calls in the same order, one for each
call of the program. -/
theorem Calculator.evaluate_iff_run {c : Calculator} {source : String} {tree : Tree}
    (hparse : c.parse source = .ok tree) :
    ∃ segments instructions,
      Segment.ofSource? (.of c.symbols c.units) c.limits source = .ok segments
      ∧ Instruction.ofSegments? ⟨c.symbols.operators, c.limits, source⟩ segments = .ok instructions
      ∧ ∀ (env : Environment) (journal : Journal),
        (∀ v, (∃ after, ((Node.root tree).evaluate env).run { journal } = (.ok v, after))
          ↔ ∃ m, Machine.run env c.symbols ⟨[], journal.draws, journal.invocations⟩ instructions
              = .ok m ∧ m.stack = [v])
        ∧ ∀ v after m, ((Node.root tree).evaluate env).run { journal } = (.ok v, after) →
          Machine.run env c.symbols ⟨[], journal.draws, journal.invocations⟩ instructions = .ok m →
          after.journal.draws = m.draws ∧ after.journal.invocations = m.invocations
            ∧ ∃ calls, m.invocations = journal.invocations ++ calls
              ∧ calls.map Invocation.callee = instructions.filterMap Instruction.callee? := by
  obtain ⟨segments, hsegments, h⟩ := bind_eq_ok.1 hparse
  obtain ⟨instructions, hinstructions, hbuilt⟩ := bind_eq_ok.1 h
  obtain ⟨rfl, hover⟩ := Tree.postorder_of_ofInstructions hbuilt
  refine ⟨segments, _, hsegments, hinstructions, fun env journal => ?_⟩
  rcases Tree.follows hover env journal with
    ⟨w, last, hevaluate, hrun⟩ | ⟨⟨fault, last, hevaluate⟩, fault', hrun⟩
  · rw [hevaluate, hrun]
    constructor
    · intro v
      constructor
      · rintro ⟨after, hsame⟩
        cases hsame
        exact ⟨_, rfl, rfl⟩
      · rintro ⟨m, hm, hstack⟩
        cases hm
        cases hstack
        exact ⟨last, rfl⟩
    · intro v after m hsame hm
      cases hsame
      cases hm
      exact ⟨rfl, rfl, Machine.run_calls hrun⟩
  · rw [hevaluate, hrun]
    constructor
    · intro v
      constructor
      · rintro ⟨after, hsame⟩
        cases hsame
      · rintro ⟨m, hm, -⟩
        cases hm
    · intro v after m hsame
      cases hsame

/-- The standard calculator. -/
def sumCalculator : Calculator :=
  .of .standard none {}

/-- A sum of a number and a call. -/
def sumSource : String := "1 + max(2 * 3, 4)"

/-- Its postfix program. -/
def sumProgram : List Instruction :=
  [.value "1" 0, .value "2" 8, .value "3" 12, .operator "*" 10, .value "4" 15, .call "max" 4 2,
    .operator "+" 2]

/-- The program of a sum, carried out to the end, tells its value and the call
that is made. -/
theorem evaluate_iff_run_sum :
    ∃ tree after, sumCalculator.parse sumSource = .ok tree
      ∧ ((Node.root tree).evaluate (sumCalculator.environment sumSource)).run
          { journal := { draws := { dice := .lowest } } } = (.ok (.number 7.0), after)
      ∧ after.journal.invocations.map Invocation.callee = [("max", 2)] := by
  have hread : (sumCalculator.parse sumSource).toOption.isSome = true := by decide +kernel
  have hlisted : (Segment.ofSource? (.of sumCalculator.symbols sumCalculator.units)
      sumCalculator.limits sumSource >>= Instruction.ofSegments?
        ⟨sumCalculator.symbols.operators, sumCalculator.limits, sumSource⟩).toOption
      = some sumProgram := by decide +kernel
  have hends : (Machine.run (sumCalculator.environment sumSource) sumCalculator.symbols
      ⟨[], ⟨.lowest, []⟩, []⟩ sumProgram).toOption.map Machine.stack = some [.number 7.0] := by
    decide +kernel
  obtain ⟨tree, htree⟩ := Option.isSome_iff_exists.1 hread
  have hparse := toOption_eq_some.1 htree
  obtain ⟨segments, instructions, hsegments, hinstructions, hall⟩ :=
    Calculator.evaluate_iff_run hparse
  obtain rfl : instructions = sumProgram := by
    obtain ⟨segments', hsegments', hprogram⟩ := bind_eq_ok.1 (toOption_eq_some.1 hlisted)
    obtain rfl := Except.ok.inj (hsegments.symm.trans hsegments')
    exact Except.ok.inj (hinstructions.symm.trans hprogram)
  obtain ⟨m, hm, hstack⟩ := Option.map_eq_some_iff.1 hends
  have hrun := toOption_eq_some.1 hm
  obtain ⟨hvalues, heffects⟩ :=
    hall (sumCalculator.environment sumSource) { draws := { dice := .lowest } }
  obtain ⟨after, hevaluate⟩ := (hvalues (.number 7.0)).2 ⟨m, hrun, hstack⟩
  obtain ⟨-, hmade, calls, hcalls, hcallees⟩ := heffects _ after m hevaluate hrun
  refine ⟨tree, after, hparse, hevaluate, ?_⟩
  rw [hmade, hcalls, List.nil_append, hcallees]
  rfl

end UnitCalc
