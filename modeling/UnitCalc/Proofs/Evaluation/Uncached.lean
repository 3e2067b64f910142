/-
Evaluation without memos.

`Expr.compute` is the plain recursion over a tree: each operand is computed
where it is met and nothing is looked up. On a tree of which nothing is known
yet, `Expr.evaluate` answers the same and leaves the same journal
(`Expr.tracks`), for the only thing it meets a second time is the value of an
operand, and that it has noted by then.

# Step by step

`Evaluation.Tracks` relates a computation with memos to one that leaves the
memo alone, and says what the first one has noted when it succeeds. It is kept
by sequencing, below a child and under a result that is remembered. What does
not look at the memo tracks itself (`of_indifferent`): the checks, the notes
and the drawing of dice.

In an operator the values of both operands are noted when their numbers are
asked for, and nothing else is (`Expr.combine_tracks`). The induction therefore
carries that the value is noted and the normalized value is not; without the
second part the number might be found instead of computed, and a fault in it
lost.

Nearly all statements about single evaluations are proved of `Expr.compute` and
brought over with this (`Expr.answer_eq_compute`).
-/
import UnitCalc.Evaluation.Basic
import UnitCalc.Proofs.Error.Answers

namespace UnitCalc

-- ============================================================ computations

namespace Evaluation

variable {α β : Type} {act spec : Evaluation α} {p : Progress}

theorem run_get (p : Progress) : (get : Evaluation Progress).run p = (.ok p, p) :=
  rfl

theorem run_ofExcept (answer : Except Fault α) (p : Progress) :
    (ofExcept answer).run p = (answer, p) := by
  cases answer <;> rfl

theorem ofExcept_bind (answer : Except Fault α) (f : α → Except Fault β) :
    ofExcept (answer >>= f) = ofExcept answer >>= fun a => ofExcept (f a) := by
  cases answer <;> rfl

theorem rememberValue_known {v : Value} (compute : Evaluation Value)
    (h : p.memo.value? = some v) : (rememberValue compute).run p = (.ok v, p) := by
  unfold rememberValue
  rw [run_bind_ok (run_get p), h]
  rfl

theorem rememberValue_ok {compute : Evaluation Value} {v : Value} {after : Progress}
    (hnone : p.memo.value? = none) (h : compute.run p = (.ok v, after)) :
    (rememberValue compute).run p
      = (.ok v, { after with memo := after.memo.withValue v }) := by
  unfold rememberValue
  rw [run_bind_ok (run_get p), hnone]
  exact run_bind_ok h

theorem rememberValue_error {compute : Evaluation Value} {fault : Fault} {after : Progress}
    (hnone : p.memo.value? = none) (h : compute.run p = (.error fault, after)) :
    (rememberValue compute).run p = (.error fault, after) := by
  unfold rememberValue
  rw [run_bind_ok (run_get p), hnone]
  exact run_bind_error h

-- ================================================================ tracking

/-- From some progress a computation answers as another one does that leaves
the memo alone, and with the same journal behind it; if it succeeds, the
answer and the memo are as they should be. -/
def Tracks (act spec : Evaluation α) (p : Progress) (noted : α → Memo → Prop) : Prop :=
  ∃ answer after, act.run p = (answer, after)
    ∧ (∀ memo, spec.run { p with memo } = (answer, { after with memo }))
    ∧ ∀ a, answer = .ok a → noted a after.memo

namespace Tracks

variable {noted : α → Memo → Prop}

theorem bind {f g : α → Evaluation β} {done : β → Memo → Prop}
    (h : Tracks act spec p noted)
    (hf : ∀ a after, noted a after.memo → Tracks (f a) (g a) after done) :
    Tracks (act >>= f) (spec >>= g) p done := by
  obtain ⟨answer, after, hact, hspec, hnoted⟩ := h
  cases answer with
  | error fault =>
      exact ⟨.error fault, after, run_bind_error hact, fun memo => run_bind_error (hspec memo),
        by simp⟩
  | ok a =>
      obtain ⟨answer, last, hrun, hplain, hdone⟩ := hf a after (hnoted a rfl)
      refine ⟨answer, last, ?_, fun memo => ?_, hdone⟩
      · rw [run_bind_ok hact, hrun]
      · rw [run_bind_ok (hspec memo)]
        exact hplain memo

theorem pure {a : α} (h : noted a p.memo) :
    Tracks (Pure.pure a) (Pure.pure a) p noted :=
  ⟨.ok a, p, rfl, fun _ => rfl, fun b hb => by cases hb; exact h⟩

theorem weaken {weaker : α → Memo → Prop} (h : Tracks act spec p noted)
    (himp : ∀ a memo, noted a memo → weaker a memo) : Tracks act spec p weaker := by
  obtain ⟨answer, after, hact, hspec, hnoted⟩ := h
  exact ⟨answer, after, hact, hspec, fun a ha => himp a _ (hnoted a ha)⟩

/-- What does not look at the memo tracks itself. -/
theorem of_indifferent
    (h : ∃ answer journal, ∀ memo, act.run { p with memo } = (answer, ⟨memo, journal⟩)) :
    Tracks act act p fun _ memo => memo = p.memo := by
  obtain ⟨answer, journal, hrun⟩ := h
  exact ⟨answer, ⟨p.memo, journal⟩, hrun p.memo, hrun, fun _ _ => rfl⟩

theorem ofExcept (answer : Except Fault α) (p : Progress) :
    Tracks (Evaluation.ofExcept answer) (Evaluation.ofExcept answer) p
      fun _ memo => memo = p.memo :=
  of_indifferent ⟨answer, p.journal, fun _ => run_ofExcept answer _⟩

theorem below {i : Nat} (h : Tracks act spec { p with memo := p.memo.child i } noted) :
    Tracks (Evaluation.below i act) spec p
      fun a memo => ∃ c, noted a c ∧ memo = p.memo.withChild i c := by
  obtain ⟨answer, after, hact, hspec, hnoted⟩ := h
  refine ⟨answer, { after with memo := p.memo.withChild i after.memo }, ?_, hspec,
    fun a ha => ⟨after.memo, hnoted a ha, rfl⟩⟩
  show Evaluation.below i act p = _
  unfold Evaluation.below
  rw [hact]

theorem rememberValue {act spec : Evaluation Value} (hnone : p.memo.value? = none)
    (h : Tracks act spec p fun _ memo => memo.normalized? = none) :
    Tracks (Evaluation.rememberValue act) spec p
      fun v memo => memo.value? = some v ∧ memo.normalized? = none := by
  obtain ⟨answer, after, hact, hspec, hnoted⟩ := h
  cases answer with
  | error fault => exact ⟨_, after, rememberValue_error hnone hact, hspec, by simp⟩
  | ok v =>
      refine ⟨_, _, rememberValue_ok hnone hact, hspec, fun w hw => ?_⟩
      cases hw
      exact ⟨rfl, hnoted v rfl⟩

end Tracks

end Evaluation

-- ======================================================= the plain recursion

/-- Applies an operator to the values of its operands. -/
def Environment.combine (env : Environment) (operator : OperatorSymbol)
    (leftPosition rightPosition position : Nat) (left right : Value) : Except Fault Value := do
  let power ← env.commonPower operator position left right
  let x ← env.numberOf leftPosition left
  let y ← env.numberOf rightPosition right
  let result ← env.applyFormula operator position x y
  if power = 0 then return .number result
  env.expressResult operator left right result

namespace Expr

mutual

/-- The value of an expression, computed without memos. -/
def compute (env : Environment) : Expr → Evaluation Value
  | literal text _ => pure (.text text)
  | binary operator left right position => do
    let leftValue ← compute env left
    let rightValue ← compute env right
    Evaluation.ofExcept
      (env.combine operator left.position right.position position leftValue rightValue)
  | call function arguments position => do
    Evaluation.ofExcept (env.checkArity function position arguments.length)
    let values ← computeArguments env function 0 arguments function.parameters
    Evaluation.note ⟨function, values⟩
    Evaluation.drawing (function.implementation values (env.callContext position))

/-- The values of the arguments of a call, computed without memos. -/
def computeArguments (env : Environment) (function : FunctionSymbol) (index : Nat) :
    List Expr → List Parameter → Evaluation (List Value)
  | e :: es, parameter :: parameters => do
    let v ← compute env e
    env.checkArgument function index parameter v e.position
    let values ← computeArguments env function (index + 1) es parameters
    return v :: values
  | _, _ => return []

end

end Expr

-- =============================================================== comparison

open Evaluation

variable {env : Environment} {p : Progress}

theorem Memo.value?_of_fresh {memo : Memo} (h : memo = Memo.fresh) : memo.value? = none := by
  rw [h]
  rfl

/-- A value that is noted is taken from there. -/
theorem Expr.evaluate_known (env : Environment) (e : Expr) {v : Value}
    (h : p.memo.value? = some v) : (e.evaluate env).run p = (.ok v, p) := by
  cases e with
  | literal text position => exact rememberValue_known _ h
  | binary operator left right position =>
      rw [Expr.evaluate]
      exact rememberValue_known _ h
  | call function arguments position =>
      rw [Expr.evaluate]
      exact rememberValue_known _ h

/-- The number of a noted value is computed from it. -/
theorem Environment.normalized_known (env : Environment) {act : Evaluation Value} {v : Value}
    (position : Nat) (hact : act.run p = (.ok v, p)) (hnone : p.memo.normalized? = none) :
    Tracks (env.normalized position act) (Evaluation.ofExcept (env.numberOf position v)) p
      fun _ _ => True := by
  have hcompute : (act >>= fun v => Evaluation.ofExcept (env.numberOf position v)).run p
      = (env.numberOf position v, p) := by
    rw [run_bind_ok hact, run_ofExcept]
  unfold Environment.normalized rememberNormalized
  cases hnumber : env.numberOf position v with
  | error fault =>
      rw [hnumber] at hcompute
      refine ⟨.error fault, p, ?_, fun memo => run_ofExcept _ _, by simp⟩
      rw [run_bind_ok (run_get p), hnone]
      exact run_bind_error hcompute
  | ok x =>
      rw [hnumber] at hcompute
      refine ⟨.ok x, { p with memo := p.memo.withNormalized x }, ?_,
        fun memo => run_ofExcept _ _, by simp⟩
      rw [run_bind_ok (run_get p), hnone]
      exact run_bind_ok hcompute

/-- A call with as many arguments as it may have has a parameter for each. -/
theorem Environment.le_of_checkArity {function : FunctionSymbol} {position given : Nat} {u : Unit}
    (h : env.checkArity function position given = .ok u) :
    given ≤ function.parameters.length := by
  unfold Environment.checkArity FunctionSymbol.maxArity at h
  split at h
  · cases h
  · next hbounds => exact Nat.le_of_not_lt (not_or.1 hbounds).2

theorem Evaluation.note_tracks (invocation : Invocation) (p : Progress) :
    Tracks (note invocation) (note invocation) p fun _ memo => memo = p.memo :=
  Tracks.of_indifferent
    ⟨.ok (), { p.journal with invocations := p.journal.invocations ++ [invocation] }, fun _ => rfl⟩

theorem Evaluation.warn_tracks (warning : Warning) (p : Progress) :
    Tracks (warn warning) (warn warning) p fun _ memo => memo = p.memo :=
  Tracks.of_indifferent
    ⟨.ok (), { p.journal with warnings := p.journal.warnings ++ [warning] }, fun _ => rfl⟩

theorem Evaluation.drawing_tracks {α : Type} (act : Drawing α) (p : Progress) :
    Tracks (drawing act) (drawing act) p fun _ memo => memo = p.memo :=
  Tracks.of_indifferent ⟨(act.run p.journal.draws).1,
    { p.journal with draws := (act.run p.journal.draws).2 }, fun _ => rfl⟩

theorem Environment.checkArgument_tracks (function : FunctionSymbol) (index : Nat)
    (parameter : Parameter) (v : Value) (position : Nat) (p : Progress) :
    Tracks (env.checkArgument function index parameter v position)
      (env.checkArgument function index parameter v position) p fun _ memo => memo = p.memo := by
  unfold Environment.checkArgument
  cases env.validators.get? parameter.type with
  | none => exact Evaluation.warn_tracks _ p
  | some validator =>
      refine (Tracks.ofExcept (validator.accepts v) p).bind fun accepted after hafter => ?_
      cases accepted with
      | true => exact Tracks.pure hafter
      | false =>
          refine (Tracks.ofExcept (.error _) after).weaken fun _ memo hmemo => ?_
          exact hmemo.trans hafter

/-- Where both operands are noted, the rest of an operator's evaluation
computes on their values. -/
theorem Expr.combine_tracks (env : Environment) (operator : OperatorSymbol) (left right : Expr)
    (position : Nat) {leftValue rightValue : Value}
    (hleft : (p.memo.child 0).value? = some leftValue)
    (hleftNone : (p.memo.child 0).normalized? = none)
    (hright : (p.memo.child 1).value? = some rightValue)
    (hrightNone : (p.memo.child 1).normalized? = none) (hnone : p.memo.normalized? = none) :
    Tracks
      (do
        let power ← Evaluation.ofExcept (env.commonPower operator position leftValue rightValue)
        let x ← Evaluation.below 0 (env.normalized left.position (left.evaluate env))
        let y ← Evaluation.below 1 (env.normalized right.position (right.evaluate env))
        let result ← Evaluation.ofExcept (env.applyFormula operator position x y)
        if power = 0 then return .number result
        Evaluation.ofExcept (env.expressResult operator leftValue rightValue result))
      (Evaluation.ofExcept
        (env.combine operator left.position right.position position leftValue rightValue))
      p fun _ memo => memo.normalized? = none := by
  unfold Environment.combine
  rw [ofExcept_bind]
  refine (Tracks.ofExcept _ p).bind fun power p₁ hp₁ => ?_
  rw [ofExcept_bind]
  have hfirst := left.evaluate_known env (p := { p₁ with memo := p₁.memo.child 0 })
    (hp₁ ▸ hleft)
  have hx := (env.normalized_known left.position hfirst (hp₁ ▸ hleftNone)).below
  refine hx.bind ?_
  rintro x p₂ ⟨c, -, hp₂⟩
  rw [ofExcept_bind]
  -- The first operand is at another child, so the memo of the second is untouched.
  have hother : p₂.memo.child 1 = p.memo.child 1 := by
    rw [hp₂, Memo.child_withChild, if_neg (by decide), hp₁]
  have hsecond := right.evaluate_known env (p := { p₂ with memo := p₂.memo.child 1 })
    (hother ▸ hright)
  have hy := (env.normalized_known right.position hsecond (hother ▸ hrightNone)).below
  refine hy.bind ?_
  rintro y p₃ ⟨d, -, hp₃⟩
  rw [ofExcept_bind]
  have hnone₃ : p₃.memo.normalized? = none := by
    rw [hp₃, Memo.normalized?_withChild, hp₂, Memo.normalized?_withChild, hp₁, hnone]
  refine (Tracks.ofExcept _ p₃).bind fun result p₄ hp₄ => ?_
  by_cases hpower : power = 0
  · simp only [hpower, ↓reduceIte]
    exact Tracks.pure (hp₄ ▸ hnone₃)
  · simp only [hpower, ↓reduceIte]
    exact (Tracks.ofExcept _ p₄).weaken fun _ memo hmemo => by rw [hmemo, hp₄, hnone₃]

mutual

/-- With nothing known, the evaluation tracks the plain recursion. -/
theorem Expr.tracks (env : Environment) : ∀ (e : Expr) (p : Progress), p.memo = Memo.fresh →
    Tracks (e.evaluate env) (e.compute env) p
      fun v memo => memo.value? = some v ∧ memo.normalized? = none
  | .literal text position, p, hfresh => by
      rw [Expr.evaluate, Expr.compute]
      refine Tracks.rememberValue (Memo.value?_of_fresh hfresh) (Tracks.pure ?_)
      rw [hfresh]
      rfl
  | .binary operator left right position, p, hfresh => by
      rw [Expr.evaluate, Expr.compute]
      have hleft := (Expr.tracks env left { p with memo := p.memo.child 0 }
        (by rw [hfresh]; rfl)).below
      refine Tracks.rememberValue (Memo.value?_of_fresh hfresh) (hleft.bind ?_)
      rintro leftValue p₁ ⟨c, ⟨hc, hcnone⟩, hp₁⟩
      have hright := (Expr.tracks env right { p₁ with memo := p₁.memo.child 1 }
        (by rw [hp₁, hfresh]; rfl)).below
      refine hright.bind ?_
      rintro rightValue p₂ ⟨d, ⟨hd, hdnone⟩, hp₂⟩
      have hfirst : p₂.memo.child 0 = c := by
        rw [hp₂, Memo.child_withChild, if_neg (by decide), hp₁, Memo.child_withChild, if_pos rfl]
      have hsecond : p₂.memo.child 1 = d := by
        rw [hp₂, Memo.child_withChild, if_pos rfl]
      refine Expr.combine_tracks env operator left right position ?_ ?_ ?_ ?_ ?_
      · rw [hfirst, hc]
      · rw [hfirst, hcnone]
      · rw [hsecond, hd]
      · rw [hsecond, hdnone]
      · rw [hp₂, Memo.normalized?_withChild, hp₁, Memo.normalized?_withChild, hfresh]
        rfl
  | .call function arguments position, p, hfresh => by
      rw [Expr.evaluate, Expr.compute]
      refine Tracks.rememberValue (Memo.value?_of_fresh hfresh)
        ((Tracks.ofExcept _ p).bind fun _ p₁ hp₁ => ?_)
      have harguments := Expr.tracksArguments env function arguments function.parameters 0 p₁
        (fun j _ => by rw [hp₁, hfresh]; rfl) (by rw [hp₁, hfresh]; rfl)
      refine harguments.bind fun values p₂ hp₂ => ?_
      refine (Evaluation.note_tracks _ p₂).bind fun _ p₃ hp₃ => ?_
      exact (Evaluation.drawing_tracks _ p₃).weaken fun _ memo hmemo => by
        rw [hmemo, hp₃, hp₂]

theorem Expr.tracksArguments (env : Environment) (function : FunctionSymbol) :
    ∀ (es : List Expr) (parameters : List Parameter) (index : Nat) (p : Progress),
      (∀ j, index ≤ j → p.memo.child j = Memo.fresh) → p.memo.normalized? = none →
      Tracks (evaluateArguments env function index es parameters)
        (computeArguments env function index es parameters) p
        fun _ memo => memo.normalized? = none
  | [], parameters, index, p, hfresh, hnone => by
      rw [evaluateArguments, computeArguments]
      · exact Tracks.pure hnone
      · simp
      · simp
  | e :: es, [], index, p, hfresh, hnone => by
      rw [evaluateArguments, computeArguments]
      · exact Tracks.pure hnone
      · simp
      · simp
  | e :: es, parameter :: parameters, index, p, hfresh, hnone => by
      rw [evaluateArguments, computeArguments]
      have hvalue := (Expr.tracks env e { p with memo := p.memo.child index }
        (hfresh index (Nat.le_refl index))).below
      refine hvalue.bind ?_
      rintro v p₁ ⟨c, -, hp₁⟩
      refine (Environment.checkArgument_tracks function index parameter v e.position p₁).bind
        fun _ p₂ hp₂ => ?_
      have hlater : ∀ j, index + 1 ≤ j → p₂.memo.child j = Memo.fresh := by
        intro j hj
        rw [hp₂, hp₁, Memo.child_withChild, if_neg (by omega)]
        exact hfresh j (by omega)
      have hnone₂ : p₂.memo.normalized? = none := by
        rw [hp₂, hp₁]
        exact hnone
      refine (Expr.tracksArguments env function es parameters (index + 1) p₂ hlater hnone₂).bind
        fun values p₃ hp₃ => ?_
      exact Tracks.pure hp₃

end

/-- So does that of a whole tree. -/
theorem Node.tracks_root (env : Environment) (tree : Tree) (p : Progress)
    (hfresh : p.memo = Memo.fresh) :
    Tracks ((Node.root tree).evaluate env) (tree.child.compute env) p
      fun v memo => memo.value? = some v ∧ memo.normalized? = none := by
  have hchild := (tree.child.tracks env { p with memo := p.memo.child 0 }
    (by rw [hfresh]; rfl)).below
  refine Tracks.rememberValue (Memo.value?_of_fresh hfresh) (hchild.weaken ?_)
  rintro v memo ⟨c, -, rfl⟩
  rw [Memo.normalized?_withChild, hfresh]
  rfl

end UnitCalc
