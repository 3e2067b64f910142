/-
From segments in infix order to instructions in postfix order.

Operators, functions and open parentheses wait on a stack until what follows
shows that their operands are complete. A call counts its arguments as they
begin: every function on the stack has a counter, and the segment right behind
the call's parenthesis or one of its commas starts an argument.

`Reduction.step` is the whole of it, one segment at a time; the segment
after the current one is looked at only to see that a function is followed
by its parenthesis.

# What the theory makes of it

Two of the faults look for trouble that never comes: a counter that is missing
and a parenthesis of a call without a function below it. They are kept as they
are and shown to be out of reach, from an invariant of the run
(`Proofs/Reduction/Invariant`). What a run answers is described twice, as a
simulation of the tree that is read (`Proofs/Reduction/Simulation`) and by the
conditions under which segments are reduced at all
(`Proofs/Reduction/Acceptance`).
-/
import UnitCalc.Instruction.Basic
import UnitCalc.Segment.Basic
import UnitCalc.Symbol.Table
import UnitCalc.Limits

namespace UnitCalc

/-- What a reduction goes by. -/
structure Grammar where
  operators : Registry OperatorSymbol
  limits : Limits
  source : String

/-- A reduction in progress. Both stacks have their top in front. -/
structure Reduction where
  output : List Instruction := []
  stack : List Segment := []
  /-- The arguments begun so far of each function on the stack. -/
  counters : List Nat := []
  /-- The kind of the segment before. -/
  previous : Option SegmentKind := none

namespace Reduction

/-- An error of the reduction at a segment. -/
def issue (grammar : Grammar) (segment : Segment) (issue : ReductionIssue) : Fault :=
  .of (.reduction issue) (some segment.position) (some grammar.source)

-- ========================================================= the stack

/-- Whether the top of a stack is the parenthesis that opens a call. -/
def callOpen : List Segment → Bool
  | top :: below :: _ => top.kind == .leftParen && below.kind == .function
  | _ => false

/-- The name of the function below the top of a stack. -/
def openFunction? : List Segment → Option String
  | _ :: below :: _ => some below.text
  | _ => none

/-- Turns a segment that leaves the stack into an instruction. A function
takes its counter along. -/
def release (grammar : Grammar) (r : Reduction) (segment : Segment) : Except Fault Reduction :=
  if segment.kind = .function then
    match r.counters with
    | [] => .error .stackUnderflow
    | count :: counters => do
      grammar.limits.checkArguments count
      return { r with
        counters := counters
        output := r.output ++ [.call segment.text segment.position count] }
  else
    .ok { r with output := r.output ++ [.operator segment.text segment.position] }

/-- Releases the top of the stack as long as it passes a test. -/
def releaseWhile (grammar : Grammar) (test : Segment → Except Fault Bool) :
    List Segment → Reduction → Except Fault Reduction
  | [], r => .ok { r with stack := [] }
  | top :: below, r => do
    if ← test top then
      releaseWhile grammar test below (← release grammar { r with stack := below } top)
    else return { r with stack := top :: below }

/-- Releases everything above the innermost open parenthesis. -/
def releaseToParen (grammar : Grammar) (r : Reduction) : Except Fault Reduction :=
  releaseWhile grammar (fun top => .ok (top.kind != .leftParen)) r.stack r

/-- Counts an argument, if one begins here. -/
def beginArgument (grammar : Grammar) (r : Reduction) (segment : Segment) :
    Except Fault Reduction :=
  if callOpen r.stack then
    match r.counters with
    | [] => .error (issue grammar segment .malformedNesting)
    | count :: counters => .ok { r with counters := (count + 1) :: counters }
  else .ok r

/-- Reports that the innermost call has an argument of nothing. -/
def emptyArgument (grammar : Grammar) (r : Reduction) (segment : Segment) : Fault :=
  match openFunction? r.stack with
  | some name => issue grammar segment (.emptyArgument name)
  | none => .stackUnderflow

-- ====================================================== the segments

/-- A value goes straight to the output. -/
def literal (grammar : Grammar) (r : Reduction) (segment : Segment) : Except Fault Reduction := do
  let r ← beginArgument grammar r segment
  return { r with output := r.output ++ [.value segment.text segment.position] }

/-- A function waits for its arguments; its parenthesis must follow. -/
def function (grammar : Grammar) (r : Reduction) (segment : Segment)
    (next : Option SegmentKind) : Except Fault Reduction := do
  if next != some .leftParen then
    throw (issue grammar segment (.functionWithoutParenthesis segment.text))
  let r ← beginArgument grammar r segment
  return { r with stack := segment :: r.stack, counters := 0 :: r.counters }

/-- An operator waits for its right operand, after the operators that go
before it have been released. -/
def operator (grammar : Grammar) (r : Reduction) (segment : Segment) : Except Fault Reduction := do
  match grammar.operators.get? segment.text with
  | none => throw (issue grammar segment (.unknownOperator segment.text))
  | some operator =>
    let goesBefore (top : Segment) : Except Fault Bool := do
      if top.kind != .operator then return false
      return operator.yieldsTo (← grammar.operators.require top.text)
    let r ← releaseWhile grammar goesBefore r.stack r
    return { r with stack := segment :: r.stack }

/-- An open parenthesis waits for the one that closes it. -/
def leftParen (grammar : Grammar) (r : Reduction) (segment : Segment) :
    Except Fault Reduction := do
  let r ← beginArgument grammar r segment
  return { r with stack := segment :: r.stack }

/-- A comma ends an argument of the innermost call. -/
def comma (grammar : Grammar) (r : Reduction) (segment : Segment) : Except Fault Reduction := do
  let r ← releaseToParen grammar r
  if !callOpen r.stack then throw (issue grammar segment .misplacedComma)
  if r.previous = some .leftParen ∨ r.previous = some .comma then
    throw (emptyArgument grammar r segment)
  return r

/-- A closing parenthesis ends a group, or a call together with its last
argument. -/
def rightParen (grammar : Grammar) (r : Reduction) (segment : Segment) :
    Except Fault Reduction := do
  let r ← releaseToParen grammar r
  match r.stack with
  | [] => throw (issue grammar segment .missingOpen)
  | _ :: below =>
    if r.previous = some .comma then throw (emptyArgument grammar r segment)
    match below with
    | top :: rest =>
      if top.kind = .function then release grammar { r with stack := rest } top
      else return { r with stack := below }
    | [] => return { r with stack := [] }

/-- Takes one segment in; `next` is the kind of the segment after it. -/
def step (grammar : Grammar) (r : Reduction) (segment : Segment) (next : Option SegmentKind) :
    Except Fault Reduction := do
  let r ← match segment.kind with
    | .literal => literal grammar r segment
    | .function => function grammar r segment next
    | .operator => operator grammar r segment
    | .leftParen => leftParen grammar r segment
    | .comma => comma grammar r segment
    | .rightParen => rightParen grammar r segment
  return { r with previous := some segment.kind }

/-- Takes segments in, one after the other. -/
def run (grammar : Grammar) : Reduction → List Segment → Except Fault Reduction
  | r, [] => .ok r
  | r, segment :: more => do
    let r ← step grammar r segment (more.head?.map Segment.kind)
    run grammar r more

/-- Releases what still waits at the end; no parenthesis may be open. -/
def finish (grammar : Grammar) (r : Reduction) : Except Fault Reduction :=
  let closed (top : Segment) : Except Fault Bool :=
    if top.kind = .leftParen then .error (issue grammar top .missingClose) else .ok true
  releaseWhile grammar closed r.stack r

end Reduction

/-- The instructions of a list of segments. -/
def Instruction.ofSegments? (grammar : Grammar) (segments : List Segment) :
    Except Fault (List Instruction) := do
  let r ← Reduction.run grammar {} segments
  return (← Reduction.finish grammar r).output

end UnitCalc
