/-
The state of an evaluation and the computations on it.

A computation leaves its state behind also when it fails: what was memoized,
drawn, called or warned about before the failure stays. So the state is below
the exception, and a failure is an answer like any other.

`Evaluation.below` moves a computation to the memo of a child, which is the
only part of the memos it can reach. The journal is passed through as a whole.
These two facts are what every statement about an evaluation rests on; they
are said once for each of the operations here, in `Proofs/Evaluation/Course`
and `Proofs/Evaluation/Memory`.
-/
import UnitCalc.Evaluation.Memo
import UnitCalc.Symbol.Table

namespace UnitCalc

/-- A call of an implementation: the function, and the values it was
given. -/
structure Invocation where
  function : FunctionSymbol
  arguments : List Value

/-- A parameter whose validator is not registered, so that its argument was
taken as it is. -/
structure Warning where
  function : String
  validator : String
  index : Nat
  deriving DecidableEq, Repr

/-- What an evaluation has done so far. -/
structure Journal where
  draws : Draws
  invocations : List Invocation := []
  warnings : List Warning := []

/-- The results of a node and those below, and the journal. -/
structure Progress where
  memo : Memo := Memo.fresh
  journal : Journal

/-- A computation at a node of a tree. -/
abbrev Evaluation := ExceptT Fault (StateM Progress)

namespace Evaluation

/-- Takes over the answer of a part that has no state. -/
def ofExcept {α : Type} (answer : Except Fault α) : Evaluation α :=
  match answer with
  | .ok a => pure a
  | .error fault => throw fault

/-- Carries out a computation at the child of an index. -/
def below {α : Type} (i : Nat) (act : Evaluation α) : Evaluation α := fun progress =>
  let (answer, after) := act.run { progress with memo := progress.memo.child i }
  (answer, { after with memo := progress.memo.withChild i after.memo })

/-- The memoized value, or else the computed one, which is then memoized. -/
def rememberValue (compute : Evaluation Value) : Evaluation Value := do
  match (← get).memo.value? with
  | some v => return v
  | none =>
    let v ← compute
    modify fun progress => { progress with memo := progress.memo.withValue v }
    return v

/-- The memoized normalized value, or else the computed one, which is then
memoized. -/
def rememberNormalized (compute : Evaluation Float) : Evaluation Float := do
  match (← get).memo.normalized? with
  | some x => return x
  | none =>
    let x ← compute
    modify fun progress => { progress with memo := progress.memo.withNormalized x }
    return x

/-- Lets an implementation draw. -/
def drawing {α : Type} (act : Drawing α) : Evaluation α := fun progress =>
  let (answer, draws) := act.run progress.journal.draws
  (answer, { progress with journal := { progress.journal with draws } })

/-- Notes a call. -/
def note (invocation : Invocation) : Evaluation Unit :=
  modify fun progress =>
    { progress with
      journal := { progress.journal with
        invocations := progress.journal.invocations ++ [invocation] } }

/-- Notes a warning. -/
def warn (warning : Warning) : Evaluation Unit :=
  modify fun progress =>
    { progress with
      journal := { progress.journal with warnings := progress.journal.warnings ++ [warning] } }

end Evaluation

end UnitCalc
