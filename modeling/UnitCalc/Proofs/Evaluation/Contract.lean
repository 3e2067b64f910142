/-
When an implementation runs.

The arguments of a call are evaluated and checked one after the other:
`Arguments.Taken` is the state behind the first so many of them, with their
values, and `Arguments.FailsAt` is the end of it at the next one. From any such
state the next argument leads to one of the two (`Arguments.Taken.goes_on`), so
by induction either all are taken or one fails (`Arguments.taken_or_failsAt`);
and whatever comes behind an argument has no part in it (`Taken.agree`,
`FailsAt.agree`).

# What it means to be invoked

The evaluation has no event for the start of an implementation, and an
implementation may answer anything. Whether it is invoked is told by putting
others in its place (`Expr.Invokes`). If it is, the call does what any of them
makes of these values; if not, the call does the same whatever it is. An
implementation that fails shows the values and the progress it was given, so
there is only one list of values and one progress (`Expr.Invokes.unique`).

# The contract

The number of arguments is checked before any of them is looked at. So there
are three courses, and `Expr.invokes_under_contract` tells them apart: another
number of arguments, an argument that fails, and all taken. Only in the last
one the implementation runs.

`Proofs/Evaluation/Filling` asks which parameters the taken arguments belong
to.
-/
import UnitCalc.Proofs.Evaluation.Handing

namespace UnitCalc

-- =============================================================== admission

namespace Environment

/-- Whether the validator of a parameter accepts a value, if there is one. -/
def Admits (env : Environment) (parameter : Parameter) (v : Value) : Prop :=
  ∀ validator, env.validators.get? parameter.type = some validator → validator.accepts v = .ok true

/-- The progress behind an argument that is admitted. A parameter without a
validator is warned about. -/
def admitted (env : Environment) (name : String) (index : Nat) (parameter : Parameter)
    (p : Progress) : Progress :=
  match env.validators.get? parameter.type with
  | some _ => p
  | none =>
    { p with journal := { p.journal with
        warnings := p.journal.warnings ++ [⟨name, parameter.type, index⟩] } }

variable {env : Environment} {parameter : Parameter} {v : Value} {validator : Validator}

theorem run_checkArgument_admits (h : env.Admits parameter v) (f : FunctionSymbol)
    (index position : Nat) (p : Progress) :
    (env.checkArgument f index parameter v position).run p
      = (.ok (), env.admitted f.name index parameter p) := by
  unfold admitted
  cases hregistered : env.validators.get? parameter.type with
  | none =>
      unfold checkArgument
      rw [hregistered]
      rfl
  | some validator => exact Expr.run_checkArgument hregistered (h validator hregistered) index p

theorem run_checkArgument_raises (hregistered : env.validators.get? parameter.type = some validator)
    {fault : Fault} (hraises : validator.accepts v = .error fault) (f : FunctionSymbol)
    (index position : Nat) (p : Progress) :
    (env.checkArgument f index parameter v position).run p = (.error fault, p) := by
  unfold checkArgument
  rw [hregistered]
  simp only [hraises]
  rfl

end Environment

-- =============================================================== arguments

namespace Arguments

variable (env : Environment) (name : String) (parameters : List Parameter) (es : List Expr)
  (p : Progress)

/-- So many arguments of a call have been evaluated and admitted, the first of
them first. -/
inductive Taken : Nat → List Value → Progress → Prop
  | none : Taken 0 [] p
  | next {k : Nat} {vs : List Value} {q after : Progress} {e : Expr} {parameter : Parameter}
      {v : Value} (before : Taken k vs q) (argument : es[k]? = some e)
      (declared : parameters[k]? = some parameter)
      (value : (Evaluation.below k (e.evaluate env)).run q = (.ok v, after))
      (admits : env.Admits parameter v) :
      Taken (k + 1) (vs ++ [v]) (env.admitted name k parameter after)

/-- All arguments before one have been taken, and its evaluation fails, or its
value is refused, or the validator fails on it. -/
inductive FailsAt (k : Nat) : Fault → Progress → Prop
  | value {vs : List Value} {q after : Progress} {e : Expr} {fault : Fault}
      (before : Taken env name parameters es p k vs q) (argument : es[k]? = some e)
      (fails : (Evaluation.below k (e.evaluate env)).run q = (.error fault, after)) :
      FailsAt k fault after
  | refused {vs : List Value} {q after : Progress} {e : Expr} {parameter : Parameter} {v : Value}
      {validator : Validator} (before : Taken env name parameters es p k vs q)
      (argument : es[k]? = some e) (declared : parameters[k]? = some parameter)
      (value : (Evaluation.below k (e.evaluate env)).run q = (.ok v, after))
      (registered : env.validators.get? parameter.type = some validator)
      (refuses : validator.accepts v = .ok false) :
      FailsAt k (env.fault e.position (.functionContract name (.argumentType k v))) after
  | raised {vs : List Value} {q after : Progress} {e : Expr} {parameter : Parameter} {v : Value}
      {validator : Validator} {fault : Fault} (before : Taken env name parameters es p k vs q)
      (argument : es[k]? = some e) (declared : parameters[k]? = some parameter)
      (value : (Evaluation.below k (e.evaluate env)).run q = (.ok v, after))
      (registered : env.validators.get? parameter.type = some validator)
      (raises : validator.accepts v = .error fault) :
      FailsAt k fault after

variable {env name parameters es p} {es' : List Expr} {k : Nat} {vs : List Value} {q : Progress}
  {fault : Fault}

/-- What is taken does not depend on the arguments behind it. -/
theorem Taken.agree (h : Taken env name parameters es p k vs q)
    (hes : ∀ i < k, es'[i]? = es[i]?) : Taken env name parameters es' p k vs q := by
  induction h with
  | none => exact .none
  | @next k vs q after e parameter v before argument declared value admits ih =>
      refine .next (ih fun i hi => hes i (Nat.lt_succ_of_lt hi)) ?_ declared value admits
      rw [hes k (Nat.lt_succ_self k), argument]

/-- Nor does a failure. -/
theorem FailsAt.agree (h : FailsAt env name parameters es p k fault q)
    (hes : ∀ i ≤ k, es'[i]? = es[i]?) : FailsAt env name parameters es' p k fault q := by
  have hbefore : ∀ i < k, es'[i]? = es[i]? := fun i hi => hes i (Nat.le_of_lt hi)
  have hsame := hes k (Nat.le_refl k)
  cases h with
  | value before argument fails =>
      exact .value (before.agree hbefore) (hsame.trans argument) fails
  | refused before argument declared value registered refuses =>
      exact .refused (before.agree hbefore) (hsame.trans argument) declared value registered refuses
  | raised before argument declared value registered raises =>
      exact .raised (before.agree hbefore) (hsame.trans argument) declared value registered raises

/-- The next argument is taken, or it fails. -/
theorem Taken.goes_on (h : Taken env name parameters es p k vs q) (hk : k < es.length)
    (hdeclared : k < parameters.length) :
    (∃ vs' q', Taken env name parameters es p (k + 1) vs' q')
      ∨ ∃ fault q', FailsAt env name parameters es p k fault q' := by
  have hargument := List.getElem?_eq_getElem hk
  have hparameter := List.getElem?_eq_getElem hdeclared
  obtain ⟨answer, after, hanswer⟩ :
      ∃ answer after, (Evaluation.below k (es[k].evaluate env)).run q = (answer, after) :=
    ⟨_, _, rfl⟩
  cases answer with
  | error fault => exact Or.inr ⟨fault, after, .value h hargument hanswer⟩
  | ok v =>
      cases hregistered : env.validators.get? parameters[k].type with
      | none =>
          refine Or.inl ⟨_, _, .next h hargument hparameter hanswer fun validator hsome => ?_⟩
          rw [hregistered] at hsome
          cases hsome
      | some validator =>
          cases haccepts : validator.accepts v with
          | error fault =>
              exact Or.inr ⟨_, _, .raised h hargument hparameter hanswer hregistered haccepts⟩
          | ok accepted =>
              cases accepted with
              | false =>
                  exact Or.inr ⟨_, _, .refused h hargument hparameter hanswer hregistered haccepts⟩
              | true =>
                  refine Or.inl ⟨_, _, .next h hargument hparameter hanswer fun other hsome => ?_⟩
                  obtain rfl := Option.some.inj (hregistered.symm.trans hsome)
                  exact haccepts

/-- All arguments of a call are taken, or one of them fails. -/
theorem taken_or_failsAt (env : Environment) (name : String) (p : Progress)
    (hparameters : es.length ≤ parameters.length) :
    (∃ vs q, Taken env name parameters es p es.length vs q)
      ∨ ∃ k < es.length, ∃ fault q, FailsAt env name parameters es p k fault q := by
  -- The first so many are taken, or one of them fails; the induction is on their number.
  have hfirst : ∀ k ≤ es.length, (∃ vs q, Taken env name parameters es p k vs q)
      ∨ ∃ j < es.length, ∃ fault q, FailsAt env name parameters es p j fault q := by
    intro k
    induction k with
    | zero => exact fun _ => Or.inl ⟨_, _, .none⟩
    | succ k ih =>
        intro hk
        rcases ih (Nat.le_of_succ_le hk) with ⟨vs, q, htaken⟩ | hfails
        · rcases htaken.goes_on hk (Nat.lt_of_lt_of_le hk hparameters) with hnext | hfails
          · exact Or.inl hnext
          · exact Or.inr ⟨k, hk, hfails⟩
        · exact Or.inr hfails
  exact hfirst es.length (Nat.le_refl _)

-- ------------------------------------------------------------- the evaluation

variable {f : FunctionSymbol}

/-- The evaluation of the arguments from one on begins with that one. -/
theorem evaluateArguments_drop {e : Expr} {parameter : Parameter} (argument : es[k]? = some e)
    (declared : f.parameters[k]? = some parameter) :
    Expr.evaluateArguments env f k (es.drop k) (f.parameters.drop k) = (do
      let v ← Evaluation.below k (e.evaluate env)
      env.checkArgument f k parameter v e.position
      let values ←
        Expr.evaluateArguments env f (k + 1) (es.drop (k + 1)) (f.parameters.drop (k + 1))
      return v :: values) := by
  obtain ⟨hk, rfl⟩ := List.getElem?_eq_some_iff.1 argument
  obtain ⟨hk', rfl⟩ := List.getElem?_eq_some_iff.1 declared
  rw [List.drop_eq_getElem_cons hk, List.drop_eq_getElem_cons hk', Expr.evaluateArguments]

/-- Behind the arguments that are taken the evaluation goes on with the others. -/
theorem Taken.run (h : Taken env f.name f.parameters es p k vs q) :
    (Expr.evaluateArguments env f 0 es f.parameters).run p
      = (Expr.evaluateArguments env f k (es.drop k) (f.parameters.drop k)
        >>= fun others => pure (vs ++ others)).run q := by
  -- Each argument that is taken moves from what is still to be done to the values.
  induction h with
  | none => simp
  | @next k vs q after e parameter v before argument declared value admits ih =>
      rw [ih, evaluateArguments_drop argument declared]
      simp only [bind_assoc, pure_bind]
      rw [run_bind_ok value, run_bind_ok (env.run_checkArgument_admits admits f k e.position after)]
      simp only [List.append_assoc, List.singleton_append]

/-- Where all are taken, these are the values. -/
theorem Taken.run_all (h : Taken env f.name f.parameters es p es.length vs q) :
    (Expr.evaluateArguments env f 0 es f.parameters).run p = (.ok vs, q) := by
  rw [h.run, List.drop_length, Expr.evaluateArguments]
  · simp only [pure_bind, List.append_nil]
    rfl
  all_goals simp

/-- Where one fails, this is the fault. -/
theorem FailsAt.run (h : FailsAt env f.name f.parameters es p k fault q)
    (hparameters : es.length ≤ f.parameters.length) :
    (Expr.evaluateArguments env f 0 es f.parameters).run p = (.error fault, q) := by
  cases h with
  | value before argument fails =>
      obtain ⟨hk, -⟩ := List.getElem?_eq_some_iff.1 argument
      have declared := List.getElem?_eq_getElem (Nat.lt_of_lt_of_le hk hparameters)
      rw [before.run, evaluateArguments_drop argument declared]
      exact run_bind_error (run_bind_error fails)
  | @refused _ _ _ e _ _ _ before argument declared value registered refuses =>
      rw [before.run, evaluateArguments_drop argument declared]
      refine run_bind_error ((run_bind_ok value).trans (run_bind_error ?_))
      exact Expr.run_checkArgument registered refuses k q
  | @raised _ _ _ e _ _ _ _ before argument declared value registered raises =>
      rw [before.run, evaluateArguments_drop argument declared]
      refine run_bind_error ((run_bind_ok value).trans (run_bind_error ?_))
      exact env.run_checkArgument_raises registered raises f k e.position q

end Arguments

-- ================================================================= the call

/-- Whether a function takes so many arguments. -/
def FunctionSymbol.Accommodates (f : FunctionSymbol) (count : Nat) : Prop :=
  f.minArity ≤ count ∧ count ≤ f.maxArity

/-- What comes of an implementation that is invoked once: the call is noted with
the values, the implementation draws and answers, and a value that it answers is
noted at the node. -/
def Progress.invoked (q : Progress) (f : FunctionSymbol) (vs : List Value) (context : CallContext) :
    Except Fault Value × Progress :=
  let (answer, draws) := (f.implementation vs context).run q.journal.draws
  let after : Progress :=
    { q with journal := { q.journal with
        draws
        invocations := q.journal.invocations ++ [⟨f, vs⟩] } }
  match answer with
  | .ok v => (.ok v, { after with memo := after.memo.withValue v })
  | .error fault => (.error fault, after)

namespace Expr

variable {env : Environment} {f : FunctionSymbol} {es : List Expr} {position k : Nat}
  {p q : Progress} {vs : List Value} {fault : Fault}

/-- Whether a call invokes its implementation on certain values: from a certain
progress on it does what any implementation in its place makes of them. -/
def Invokes (env : Environment) (f : FunctionSymbol) (es : List Expr) (position : Nat)
    (p : Progress) (vs : List Value) (q : Progress) : Prop :=
  ∀ implementation : Implementation,
    ((call { f with implementation } es position).evaluate env).run p
      = q.invoked { f with implementation } vs (env.callContext position)

theorem checkArity_ok {count : Nat} (h : f.Accommodates count) :
    env.checkArity f position count = .ok () := by
  obtain ⟨hleast, hmost⟩ := h
  unfold Environment.checkArity
  rw [if_neg (by omega)]

theorem checkArity_error {count : Nat} (h : ¬ f.Accommodates count) :
    env.checkArity f position count = .error (env.fault position
      (.functionContract f.name (.arity f.minArity f.maxArity count))) := by
  unfold FunctionSymbol.Accommodates at h
  unfold Environment.checkArity
  rw [if_pos (by omega)]

/-- With a wrong number of arguments neither they nor the implementation are
looked at. -/
theorem run_call_arity (hnone : p.memo.value? = none) (hcount : ¬ f.Accommodates es.length)
    (es' : List Expr) (implementation : Implementation) (hlength : es'.length = es.length) :
    ((call { f with implementation } es' position).evaluate env).run p
      = (.error (env.fault position
          (.functionContract f.name (.arity f.minArity f.maxArity es.length))), p) := by
  have harity : env.checkArity { f with implementation } position es.length = .error _ :=
    checkArity_error hcount
  rw [evaluate, hlength, harity]
  exact Evaluation.rememberValue_error hnone (run_bind_error (Evaluation.run_ofExcept _ p))

/-- Where an argument fails, neither those behind it nor the implementation are
looked at. -/
theorem run_call_failsAt (hnone : p.memo.value? = none) (hcount : f.Accommodates es.length)
    (h : Arguments.FailsAt env f.name f.parameters es p k fault q) (es' : List Expr)
    (implementation : Implementation) (hlength : es'.length = es.length)
    (hes : ∀ i ≤ k, es'[i]? = es[i]?) :
    ((call { f with implementation } es' position).evaluate env).run p = (.error fault, q) := by
  have hcount' : env.checkArity { f with implementation } position es.length = .ok () :=
    checkArity_ok hcount
  have hfails : (evaluateArguments env { f with implementation } 0 es' f.parameters).run p
      = (.error fault, q) :=
    Arguments.FailsAt.run (f := { f with implementation }) (h.agree hes) (hlength ▸ hcount.2)
  rw [evaluate, hlength, hcount']
  refine Evaluation.rememberValue_error hnone ?_
  exact (run_bind_ok (Evaluation.run_ofExcept _ p)).trans (run_bind_error hfails)

/-- Where all arguments are taken, the implementation is invoked on their
values. -/
theorem run_call_taken (hnone : p.memo.value? = none) (hcount : f.Accommodates es.length)
    (h : Arguments.Taken env f.name f.parameters es p es.length vs q) :
    ((call f es position).evaluate env).run p
      = q.invoked f vs (env.callContext position) := by
  obtain ⟨answer, draws, hanswer⟩ : ∃ answer draws,
      (f.implementation vs (env.callContext position)).run q.journal.draws = (answer, draws) :=
    ⟨_, _, rfl⟩
  have hcompute : (do
      Evaluation.ofExcept (env.checkArity f position es.length)
      let values ← evaluateArguments env f 0 es f.parameters
      Evaluation.note ⟨f, values⟩
      Evaluation.drawing (f.implementation values (env.callContext position)) :
        Evaluation Value).run p
      = (answer, { q with journal := { q.journal with
          draws
          invocations := q.journal.invocations ++ [⟨f, vs⟩] } }) := by
    rw [checkArity_ok hcount]
    refine (run_bind_ok (Evaluation.run_ofExcept _ p)).trans ((run_bind_ok h.run_all).trans ?_)
    exact (run_bind_ok rfl).trans (Evaluation.run_drawing hanswer)
  rw [evaluate]
  unfold Progress.invoked
  rw [hanswer]
  cases answer with
  | ok v => exact Evaluation.rememberValue_ok hnone hcompute
  | error fault => exact Evaluation.rememberValue_error hnone hcompute

/-- What a call is told by an implementation that fails. -/
theorem Invokes.run_failing (h : Invokes env f es position p vs q) (fault : Fault) :
    ((call { f with implementation := fun _ _ => throw fault } es position).evaluate env).run p
      = (.error fault, { q with journal := { q.journal with
          invocations := q.journal.invocations ++
            [⟨{ f with implementation := fun _ _ => throw fault }, vs⟩] } }) :=
  h fun _ _ => throw fault

/-- A call that fails whatever the implementation is does not invoke it. -/
theorem Invokes.not_error (h : Invokes env f es position p vs q) {fault : Fault} {q' : Progress}
    (hfails : ∀ implementation : Implementation,
      ((call { f with implementation } es position).evaluate env).run p = (.error fault, q')) :
    False := by
  have hanswer := (h fun _ _ => pure (.number 0)).symm.trans (hfails fun _ _ => pure (.number 0))
  cases congrArg Prod.fst hanswer

/-- A call invokes its implementation on one list of values only, and from one
progress. -/
theorem Invokes.unique {vs' : List Value} {q' : Progress} (h : Invokes env f es position p vs q)
    (h' : Invokes env f es position p vs' q') : vs = vs' ∧ q = q' := by
  -- The last invocation in the journal of a failing implementation tells the values.
  have hsame := (Prod.mk.inj
    ((h.run_failing .stackUnderflow).symm.trans (h'.run_failing .stackUnderflow))).2
  obtain ⟨memo, draws, invocations, warnings⟩ := q
  obtain ⟨memo', draws', invocations', warnings'⟩ := q'
  obtain ⟨rfl, hjournal⟩ := Progress.mk.inj hsame
  obtain ⟨rfl, hinvocations, rfl⟩ := Journal.mk.inj hjournal
  obtain ⟨rfl, hlast⟩ := List.append_inj' hinvocations rfl
  exact ⟨(Invocation.mk.inj (List.singleton_inj.1 hlast)).2, rfl⟩

/-- All arguments are taken where an implementation is invoked, with the same
values. -/
theorem invokes_iff (hnone : p.memo.value? = none) :
    Invokes env f es position p vs q
      ↔ f.Accommodates es.length ∧ Arguments.Taken env f.name f.parameters es p es.length vs q := by
  have hinvokes : ∀ {vs q}, f.Accommodates es.length →
      Arguments.Taken env f.name f.parameters es p es.length vs q →
      Invokes env f es position p vs q :=
    fun hcount h implementation => run_call_taken (f := { f with implementation }) hnone hcount h
  constructor
  · intro h
    -- In the two other courses the call fails whatever the implementation is.
    by_cases hcount : f.Accommodates es.length
    · rcases Arguments.taken_or_failsAt env f.name p hcount.2 with
        ⟨vs', q', hall⟩ | ⟨k, -, fault, q', hfails⟩
      · obtain ⟨rfl, rfl⟩ := h.unique (hinvokes hcount hall)
        exact ⟨hcount, hall⟩
      · exact (h.not_error fun implementation =>
          run_call_failsAt hnone hcount hfails es implementation rfl fun _ _ => rfl).elim
    · exact (h.not_error fun implementation =>
        run_call_arity hnone hcount es implementation rfl).elim
  · rintro ⟨hcount, h⟩
    exact hinvokes hcount h

/-- An implementation runs only under its contract. A call whose value is not
known invokes its implementation on certain values exactly if it has a number of
arguments that the function takes and all of them are taken, with these values in
their order. With another number of arguments none of them is looked at, and
neither is the implementation. Otherwise the fault is that of the first argument
that fails, and neither those behind it nor the implementation are looked at. -/
theorem invokes_under_contract (env : Environment) (f : FunctionSymbol) (es : List Expr)
    (position : Nat) {p : Progress} (hnone : p.memo.value? = none) :
    (∀ vs q, Invokes env f es position p vs q
      ↔ f.Accommodates es.length ∧ Arguments.Taken env f.name f.parameters es p es.length vs q)
    ∧ (¬ f.Accommodates es.length →
      ∀ (es' : List Expr) (implementation : Implementation), es'.length = es.length →
        ((call { f with implementation } es' position).evaluate env).run p
          = (.error (env.fault position
              (.functionContract f.name (.arity f.minArity f.maxArity es.length))), p))
    ∧ (f.Accommodates es.length →
      (¬ ∃ vs q, Arguments.Taken env f.name f.parameters es p es.length vs q) →
      ∃ k < es.length, ∃ fault q, Arguments.FailsAt env f.name f.parameters es p k fault q
        ∧ ∀ (es' : List Expr) (implementation : Implementation), es'.length = es.length →
          (∀ i ≤ k, es'[i]? = es[i]?) →
          ((call { f with implementation } es' position).evaluate env).run p
            = (.error fault, q)) := by
  refine ⟨fun vs q => invokes_iff hnone, run_call_arity hnone, fun hcount hnot => ?_⟩
  obtain ⟨k, hk, fault, q, hfails⟩ :=
    (Arguments.taken_or_failsAt env f.name p hcount.2).resolve_left hnot
  exact ⟨k, hk, fault, q, hfails, run_call_failsAt hnone hcount hfails⟩

/-- An evaluation that begins, with the dice at their lowest. -/
def dealt : Progress := { journal := { draws := { dice := .lowest } } }

/-- Two texts are handed to a function of texts; no arguments are too few for it,
and a function of numbers refuses the first. -/
theorem invokes_joining :
    Invokes (joiningCalculator.environment "join(a,b)") joining [.literal "a" 5, .literal "b" 7] 0
        dealt [.text "a", .text "b"]
        ⟨.node none none [.node (some (.text "a")) none [], .node (some (.text "b")) none []],
          dealt.journal⟩
      ∧ ((call joining [] 0).evaluate (joiningCalculator.environment "join(a,b)")).run dealt
        = (.error ((joiningCalculator.environment "join(a,b)").fault 0
            (.functionContract "join" (.arity 1 2 0))), dealt)
      ∧ ∀ vs q, ¬ Invokes (joiningCalculator.environment "join(a,b)")
          { joining with parameters := [{}, {}] } [.literal "a" 5, .literal "b" 7] 0 dealt vs
          q := by
  have hadmits : ∀ text, (joiningCalculator.environment "join(a,b)").Admits
      { type := Parameter.string } (.text text) := by
    intro text validator hvalidator
    cases hvalidator
    rfl
  have hoptional : ∀ text, (joiningCalculator.environment "join(a,b)").Admits
      { type := Parameter.string, mode := .optional } (.text text) := hadmits
  refine ⟨?_, ?_, ?_⟩
  · obtain ⟨hinvokes, -⟩ := invokes_under_contract (joiningCalculator.environment "join(a,b)")
      joining [.literal "a" 5, .literal "b" 7] 0 (p := dealt) rfl
    refine (hinvokes _ _).2 ⟨⟨by decide, by decide⟩, ?_⟩
    exact .next (.next .none rfl rfl rfl (hadmits "a")) rfl rfl rfl (hoptional "b")
  · obtain ⟨-, harity, -⟩ := invokes_under_contract (joiningCalculator.environment "join(a,b)")
      joining [] 0 (p := dealt) rfl
    refine harity ?_ [] joining.implementation rfl
    rintro ⟨hleast, -⟩
    exact absurd hleast (by decide)
  · -- A text where a number is expected: the first argument fails.
    obtain ⟨hinvokes, -⟩ := invokes_under_contract (joiningCalculator.environment "join(a,b)")
      { joining with parameters := [{}, {}] } [.literal "a" 5, .literal "b" 7] 0 (p := dealt) rfl
    intro vs q h
    have htaken := ((hinvokes vs q).1 h).2.run_all
    have hrefused : (evaluateArguments (joiningCalculator.environment "join(a,b)")
        { joining with parameters := [{}, {}] } 0 [.literal "a" 5, .literal "b" 7] [{}, {}]).run
          dealt = (.error _, _) := rfl
    rw [hrefused] at htaken
    cases htaken

end Expr

end UnitCalc
