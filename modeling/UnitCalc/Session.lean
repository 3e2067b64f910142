/-
Sessions with one expression.

The tree stays as it was parsed; converters and validators may come and go
between the requests, and every request sees those that are there and the
results memoized so far. So a session is the place where memoizing can be
seen: an answer that was noted does not change when the units do.

`Proofs/Session/History` says which results are noted after any sequence of
requests, and `Proofs/Session/Transparency` that requests alone, without
changes between them, answer what an evaluation without memos answers.
-/
import UnitCalc.Evaluation.Outcome

namespace UnitCalc

/-- A parsed expression, its surroundings, and what has been computed of
it. -/
structure Session where
  tree : Tree
  calculator : Calculator
  progress : Progress

namespace Session

/-- Parses a source and begins a session with nothing computed. -/
def begin? (calculator : Calculator) (dice : Dice) (source : String) : Except Fault Session := do
  let tree ← calculator.parse source
  return ⟨tree, calculator, { journal := { draws := { dice } } }⟩

/-- The environment of the next request. -/
def environment (s : Session) : Environment :=
  s.calculator.environment s.tree.source

/-- Carries out a request at the node that a path leads to. -/
def request {α : Type} (s : Session) (path : List Nat)
    (act : Environment → Node → Evaluation α) : Except Fault (Option α) × Session :=
  let (answer, progress) :=
    ((Node.root s.tree).visit (act s.environment) path).run s.progress
  (answer, { s with progress })

/-- The value of a node. -/
def evaluate (s : Session) (path : List Nat) : Except Fault (Option Value) × Session :=
  s.request path fun env n => n.evaluate env

/-- The value of a node in the canonical unit. -/
def normalize (s : Session) (path : List Nat) : Except Fault (Option Float) × Session :=
  s.request path fun env n => n.normalize env

/-- The outcome of a node. -/
def outcome (s : Session) (path : List Nat) : Except Fault (Option Outcome) × Session :=
  s.request path fun env n => n.outcome env

/-- Whether the value and the normalized value of a node are memoized. -/
def memoized (s : Session) (path : List Nat) : Bool × Bool :=
  let memo := path.foldl Memo.child s.progress.memo
  (memo.value?.isSome, memo.normalized?.isSome)

-- ==================================================== surroundings

/-- Changes the symbols; the tree keeps those it was built with. -/
def changeSymbols (s : Session) (f : SymbolTable → SymbolTable) : Session :=
  { s with calculator := { s.calculator with symbols := f s.calculator.symbols } }

/-- Changes the units. -/
def changeUnits (s : Session) (f : UnitRegistry → UnitRegistry) : Session :=
  { s with calculator := { s.calculator with units := f s.calculator.units } }

/-- Takes other dice from now on. -/
def changeDice (s : Session) (dice : Dice) : Session :=
  let journal := s.progress.journal
  { s with progress := { s.progress with
      journal := { journal with draws := { journal.draws with dice } } } }

end Session

/-- The calls of audited functions. -/
def Journal.auditedCalls (j : Journal) : List Invocation :=
  j.invocations.filter fun invocation => invocation.function.audited

end UnitCalc
