/-
Measures that are taken on a call stack.

The number of nodes and the depth of a tree are taken by calls that call
themselves for what is below, one pending call for each level, and a stack
has room for so many pending calls only. Both measures are taken before the
limits on nodes and on depth are looked at, so no limit on trees keeps a
tree from being too deep for them: on a stack without the room the measuring
is broken off.

`Expr.count` and `Expr.depth` give the results on a stack with room for
every level. Here are the two as they are computed, one definition with the
way in which the measures of several nodes are combined as a parameter, and
`Expr.reach`, the number of pending calls up to which a measuring goes.

# What becomes pending

A measuring call asks its node for its kind by a call of its own, which ends
before anything else is called (`CallStack.behind` with one call taken and one
more asked for). The arguments of a call are added up by the library's
adding, behind which further calls are pending (`CallStack.passing`); their
depths are compared in a loop, behind which there are none.

That a measuring succeeds exactly on a stack with as much room as it reaches
is `Expr.measureWithin_eq`, and what this means for parsing is said in
`Proofs/Parsing/Endings`.
-/
import UnitCalc.Expr.Build

namespace UnitCalc

-- ========================================================== the stack

/-- The stack of pending calls on which a tree is measured. -/
structure CallStack where
  /-- How many calls may be pending from the measuring on. -/
  room : Nat
  /-- How many further calls are pending while the nodes of arguments are
  added up. -/
  passing : Nat := 1
  deriving DecidableEq, Repr

/-- The room that an interpreter grants to all pending calls if it is not
told otherwise. -/
def CallStack.standard : CallStack := { room := 1000 }

/-- Why a computation on a stack was broken off. -/
inductive Interruption where
  | fault (fault : Fault)
  | stackExhausted
  deriving DecidableEq, Repr

/-- The room that is left behind some pending calls, which ask for more room
than they keep. -/
def CallStack.behind (room taken asked : Nat) : Except Interruption Nat :=
  if room < taken + asked then .error .stackExhausted else .ok (room - taken)

-- ======================================================= the measures

namespace Expr

mutual

/-- A measure of an expression on a stack with some room: one more than the
measures below combined. -/
def measureWithin (combine : Nat → Nat → Nat) (passing room : Nat) :
    Expr → Except Interruption Nat
  | literal _ _ => do
    let _ ← CallStack.behind room 1 1
    return 1
  | binary _ left right _ => do
    let below ← CallStack.behind room 1 1
    let measure ← measureWithin combine passing below left
    let measure' ← measureWithin combine passing below right
    return 1 + combine measure measure'
  | call _ arguments _ => do
    let below ← CallStack.behind room 1 1
    let below ← CallStack.behind below passing 0
    return 1 + (← measureAllWithin combine passing below arguments)

/-- The measures of several expressions combined. -/
def measureAllWithin (combine : Nat → Nat → Nat) (passing room : Nat) :
    List Expr → Except Interruption Nat
  | [] => .ok 0
  | e :: es => do
    let measure ← measureWithin combine passing room e
    let measures ← measureAllWithin combine passing room es
    return combine measure measures

end

mutual

/-- How many calls are pending at most while an expression is measured. -/
def reach (passing : Nat) : Expr → Nat
  | literal _ _ => 2
  | binary _ left right _ => 1 + max (reach passing left) (reach passing right)
  | call _ arguments _ => 1 + max 1 (passing + reachAll passing arguments)

/-- The same of several expressions, which are measured one after the
other. -/
def reachAll (passing : Nat) : List Expr → Nat
  | [] => 0
  | e :: es => max (reach passing e) (reachAll passing es)

end

end Expr

namespace Tree

/-- A measure of a tree, its root included. -/
def measureWithin (combine : Nat → Nat → Nat) (passing room : Nat) (t : Tree) :
    Except Interruption Nat := do
  let below ← CallStack.behind room 1 1
  return 1 + (← t.child.measureWithin combine passing below)

/-- How many calls are pending at most while a tree is measured. -/
def reach (passing : Nat) (t : Tree) : Nat :=
  1 + t.child.reach passing

/-- Measures a tree and checks it against the limits, its nodes before its
depth. -/
def measuredOn (stack : CallStack) (limits : Limits) (t : Tree) : Except Interruption Tree := do
  let count ← t.measureWithin (· + ·) stack.passing stack.room
  (limits.checkNodes count).mapError .fault
  let depth ← t.measureWithin max 0 stack.room
  (limits.checkDepth depth).mapError .fault
  return t

end Tree

end UnitCalc
