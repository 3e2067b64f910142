/-
Evaluation with an observer.

`Observed` computations do what evaluations do and keep two accounts besides:
of the results that are being computed, innermost first, and of the calls whose
implementations came to an end, in that order. A result is put on the first
account when its computation begins, and taken off only when the computation
succeeds; so what a failure leaves there is the computation that failed and,
behind it, those that it was begun for.

The definitions repeat those of the evaluation, line by line. That the observer
changes nothing is part of what is proved of each of them
(`Observed.Watches`, in `Proofs/Evaluation/Course`), so that nothing said of an
observed computation rests on the repetition.

Both the evaluation and its observer remember results in the same way. That is
stated once, for any state (`remember`), with the three ways it can go.
-/
import UnitCalc.Evaluation.Basic
import UnitCalc.Proofs.Evaluation.Memory
import UnitCalc.Proofs.Evaluation.Uncached

namespace UnitCalc

-- ================================================================ remembering

section

variable {σ α : Type}

/-- What a state knows, or else what is computed, which is then noted. -/
def remember (known : σ → Option α) (note : σ → α → σ) (compute : ExceptT Fault (StateM σ) α) :
    ExceptT Fault (StateM σ) α := do
  match known (← get) with
  | some a => return a
  | none =>
    let a ← compute
    modify fun s => note s a
    return a

variable {known : σ → Option α} {note : σ → α → σ} {compute : ExceptT Fault (StateM σ) α}
  {s after : σ} {a : α}

theorem remember_known (h : known s = some a) :
    (remember known note compute).run s = (.ok a, s) := by
  unfold remember
  rw [run_bind_ok (rfl : (get : ExceptT Fault (StateM σ) σ).run s = (.ok s, s)), h]
  rfl

theorem remember_ok (hnone : known s = none) (h : compute.run s = (.ok a, after)) :
    (remember known note compute).run s = (.ok a, note after a) := by
  unfold remember
  rw [run_bind_ok (rfl : (get : ExceptT Fault (StateM σ) σ).run s = (.ok s, s)), hnone]
  exact run_bind_ok h

theorem remember_error {fault : Fault} (hnone : known s = none)
    (h : compute.run s = (.error fault, after)) :
    (remember known note compute).run s = (.error fault, after) := by
  unfold remember
  rw [run_bind_ok (rfl : (get : ExceptT Fault (StateM σ) σ).run s = (.ok s, s)), hnone]
  exact run_bind_error h

end

/-- Evaluations look into the memo of the node. -/
def Evaluation.remember {α : Type} (known : Memo → Option α) (note : Memo → α → Memo) :
    Evaluation α → Evaluation α :=
  UnitCalc.remember (fun p => known p.memo) fun p a => { p with memo := note p.memo a }

theorem Evaluation.rememberValue_eq (compute : Evaluation Value) :
    rememberValue compute = Evaluation.remember Memo.value? Memo.withValue compute := by
  unfold rememberValue Evaluation.remember UnitCalc.remember
  congr 1
  funext p
  dsimp only
  cases p.memo.value? <;> rfl

theorem Evaluation.rememberNormalized_eq (compute : Evaluation Float) :
    rememberNormalized compute
      = Evaluation.remember Memo.normalized? Memo.withNormalized compute := by
  unfold rememberNormalized Evaluation.remember UnitCalc.remember
  congr 1
  funext p
  dsimp only
  cases p.memo.normalized? <;> rfl

-- ================================================================ observations

/-- What is observed of an evaluation. -/
structure Observation where
  progress : Progress
  running : List Request := []
  completed : List (List Nat) := []

namespace Observation

/-- What is observed at the child of an index, where nothing has been yet. -/
def child (o : Observation) (i : Nat) : Observation :=
  { progress := { o.progress with memo := o.progress.memo.child i } }

/-- Adds what has been observed at the child of an index. -/
def withChild (o : Observation) (i : Nat) (c : Observation) : Observation where
  progress := { c.progress with memo := o.progress.memo.withChild i c.progress.memo }
  running := c.running.map (Request.below i) ++ o.running
  completed := o.completed ++ c.completed.map (List.cons i)

end Observation

/-- A computation that is observed. -/
abbrev Observed := ExceptT Fault (StateM Observation)

namespace Observed

/-- An evaluation of which there is nothing to observe. -/
def lift {α : Type} (act : Evaluation α) : Observed α := fun o =>
  let (answer, progress) := act.run o.progress
  (answer, { o with progress })

/-- Carries out a computation at the child of an index. -/
def below {α : Type} (i : Nat) (act : Observed α) : Observed α := fun o =>
  let (answer, c) := act.run (o.child i)
  (answer, o.withChild i c)

/-- Computes a result of the node; it is running until it has succeeded. -/
def computing {α : Type} (entry : Entry) (act : Observed α) : Observed α := fun o =>
  match act.run { o with running := ⟨[], entry⟩ :: o.running } with
  | (.ok a, after) => (.ok a, { after with running := o.running })
  | (.error fault, after) => (.error fault, after)

/-- Carries out the implementation of the node, which is noted when it comes
to an end. -/
def completing {α : Type} (act : Observed α) : Observed α := fun o =>
  match act.run o with
  | (.ok a, after) => (.ok a, { after with completed := after.completed ++ [[]] })
  | (.error fault, after) => (.error fault, after)

section

variable {α : Type} {act : Observed α} {o c after : Observation} {answer : Except Fault α} {a : α}
  {fault : Fault}

theorem run_below {i : Nat} (h : act.run (o.child i) = (answer, c)) :
    (below i act).run o = (answer, o.withChild i c) := by
  show below i act o = _
  unfold below
  rw [h]

theorem run_computing_ok {entry : Entry}
    (h : act.run { o with running := ⟨[], entry⟩ :: o.running } = (.ok a, after)) :
    (computing entry act).run o = (.ok a, { after with running := o.running }) := by
  show computing entry act o = _
  unfold computing
  rw [h]

theorem run_computing_error {entry : Entry}
    (h : act.run { o with running := ⟨[], entry⟩ :: o.running } = (.error fault, after)) :
    (computing entry act).run o = (.error fault, after) := by
  show computing entry act o = _
  unfold computing
  rw [h]

theorem run_completing_ok (h : act.run o = (.ok a, after)) :
    (completing act).run o = (.ok a, { after with completed := after.completed ++ [[]] }) := by
  show completing act o = _
  unfold completing
  rw [h]

theorem run_completing_error (h : act.run o = (.error fault, after)) :
    (completing act).run o = (.error fault, after) := by
  show completing act o = _
  unfold completing
  rw [h]

end

/-- A result that is memoized, or else the computed one, which is then
memoized. -/
def remember {α : Type} (entry : Entry) (known : Memo → Option α) (note : Memo → α → Memo)
    (compute : Observed α) : Observed α :=
  UnitCalc.remember (fun o => known o.progress.memo)
    (fun o a => { o with progress := { o.progress with memo := note o.progress.memo a } })
    (computing entry compute)

/-- The memoized value, or else the computed one. -/
def rememberValue : Observed Value → Observed Value :=
  remember .value Memo.value? Memo.withValue

/-- The memoized normalized value, or else the computed one. -/
def rememberNormalized : Observed Float → Observed Float :=
  remember .normalized Memo.normalized? Memo.withNormalized

/-- The memoized number of a node, or that of its value. -/
def normalized (env : Environment) (position : Nat) (evaluate : Observed Value) :
    Observed Float :=
  rememberNormalized do
    let v ← evaluate
    lift (Evaluation.ofExcept (env.numberOf position v))

mutual

/-- The value of an expression. -/
def evaluate (env : Environment) : Expr → Observed Value
  | .literal text _ => rememberValue (pure (.text text))
  | .binary operator left right position =>
    rememberValue do
      let leftValue ← below 0 (evaluate env left)
      let rightValue ← below 1 (evaluate env right)
      let power ← lift (Evaluation.ofExcept
        (env.commonPower operator position leftValue rightValue))
      let x ← below 0 (normalized env left.position (evaluate env left))
      let y ← below 1 (normalized env right.position (evaluate env right))
      let result ← lift (Evaluation.ofExcept (env.applyFormula operator position x y))
      if power = 0 then return .number result
      lift (Evaluation.ofExcept (env.expressResult operator leftValue rightValue result))
  | .call function arguments position =>
    rememberValue do
      lift (Evaluation.ofExcept (env.checkArity function position arguments.length))
      let values ← evaluateArguments env function 0 arguments function.parameters
      lift (Evaluation.note ⟨function, values⟩)
      completing (lift
        (Evaluation.drawing (function.implementation values (env.callContext position))))

/-- The values of the arguments of a call. -/
def evaluateArguments (env : Environment) (function : FunctionSymbol) (index : Nat) :
    List Expr → List Parameter → Observed (List Value)
  | e :: es, parameter :: parameters => do
    let v ← below index (evaluate env e)
    lift (env.checkArgument function index parameter v e.position)
    let values ← evaluateArguments env function (index + 1) es parameters
    return v :: values
  | _, _ => return []

end

/-- The value of a node. -/
def evaluateNode (env : Environment) : Node → Observed Value
  | .root tree => rememberValue (below 0 (evaluate env tree.child))
  | .inner e => evaluate env e

/-- A result of a node. -/
def result (env : Environment) (n : Node) : Entry → Observed Result
  | .value => Result.value <$> evaluateNode env n
  | .normalized => Result.normalized <$> normalized env n.position (evaluateNode env n)

/-- Carries out a computation at the node that a path leads to, if it leads
to one. -/
def visit {α : Type} (n : Node) (act : Node → Observed α) : List Nat → Observed (Option α)
  | [] => some <$> act n
  | i :: path =>
    match n.children[i]? with
    | some e => below i (visit (.inner e) act path)
    | none => return none

end Observed

/-- A result of a node. -/
def Node.result (env : Environment) (n : Node) : Entry → Evaluation Result
  | .value => Result.value <$> n.evaluate env
  | .normalized => Result.normalized <$> n.normalize env

end UnitCalc
