/-
What has been computed so far, kept beside a tree: a memo for each node,
arranged like the nodes.

A memo that is missing stands for a node of which nothing has been computed,
so the fresh memo fits every tree, and no memo has to be told the shape of the
tree before it is used. The views `value?`, `normalized?` and `child` are all
that is ever looked at; what each way of changing a memo does to each of them
is said beside it, so the list of the children is not opened again.
-/
import UnitCalc.Value

namespace UnitCalc

/-- The results of a node and of the nodes below it. -/
inductive Memo where
  | node (value : Option Value) (normalized : Option Float) (children : List Memo)

namespace Memo

/-- Nothing computed yet. -/
def fresh : Memo := node none none []

/-- The value of the node. -/
def value? : Memo → Option Value
  | node value _ _ => value

/-- The value of the node in the canonical unit. -/
def normalized? : Memo → Option Float
  | node _ normalized _ => normalized

/-- The memos of the nodes directly below. -/
def children : Memo → List Memo
  | node _ _ children => children

/-- Notes the value of the node. -/
def withValue (m : Memo) (v : Value) : Memo :=
  node (some v) m.normalized? m.children

/-- Notes the value of the node in the canonical unit. -/
def withNormalized (m : Memo) (x : Float) : Memo :=
  node m.value? (some x) m.children

/-- The memo of the child at an index. -/
def child (m : Memo) (i : Nat) : Memo :=
  m.children.getD i fresh

/-- A list with another memo at an index, filled up with fresh ones. -/
def replaceAt (c : Memo) : Nat → List Memo → List Memo
  | 0, [] => [c]
  | 0, _ :: ms => c :: ms
  | i + 1, [] => fresh :: replaceAt c i []
  | i + 1, m :: ms => m :: replaceAt c i ms

/-- Puts a memo in the place of the child at an index. -/
def withChild (m : Memo) (i : Nat) (c : Memo) : Memo :=
  node m.value? m.normalized? (replaceAt c i m.children)

-- ============================================================ views

theorem getD_replaceAt (c : Memo) (i j : Nat) (ms : List Memo) :
    (replaceAt c i ms).getD j fresh = if i = j then c else ms.getD j fresh := by
  induction i generalizing j ms with
  | zero => cases ms <;> cases j <;> simp [replaceAt]
  | succ i ih =>
    cases ms with
    | nil => cases j with
      | zero => simp [replaceAt]
      | succ j => simpa [replaceAt] using ih j []
    | cons m ms => cases j with
      | zero => simp [replaceAt]
      | succ j => simpa [replaceAt] using ih j ms

/-- The child put in is found again, and the others stay. -/
@[simp] theorem child_withChild (m c : Memo) (i j : Nat) :
    (m.withChild i c).child j = if i = j then c else m.child j :=
  getD_replaceAt c i j m.children

@[simp] theorem value?_withChild (m c : Memo) (i : Nat) :
    (m.withChild i c).value? = m.value? := rfl

@[simp] theorem normalized?_withChild (m c : Memo) (i : Nat) :
    (m.withChild i c).normalized? = m.normalized? := rfl

@[simp] theorem value?_withValue (m : Memo) (v : Value) :
    (m.withValue v).value? = some v := rfl

@[simp] theorem normalized?_withValue (m : Memo) (v : Value) :
    (m.withValue v).normalized? = m.normalized? := rfl

@[simp] theorem child_withValue (m : Memo) (v : Value) (i : Nat) :
    (m.withValue v).child i = m.child i := rfl

@[simp] theorem value?_withNormalized (m : Memo) (x : Float) :
    (m.withNormalized x).value? = m.value? := rfl

@[simp] theorem normalized?_withNormalized (m : Memo) (x : Float) :
    (m.withNormalized x).normalized? = some x := rfl

@[simp] theorem child_withNormalized (m : Memo) (x : Float) (i : Nat) :
    (m.withNormalized x).child i = m.child i := rfl

end Memo

end UnitCalc
