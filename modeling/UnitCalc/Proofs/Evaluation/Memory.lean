/-
What the memos of a tree hold.

A request names a result by a path to its node and by which of the node's two
results it is, and `Memo.find?` looks it up. Two things are said of memos.

* One only adds to another (`Memo.Extends`): every result that is found in the
  first is found in the second, and is the same. It is shown node by node
  (`Extends.of_nodes`), since whatever is noted is noted at one node.
* A memo fits a tree (`Node.Fits`): no node has a result without those that it
  is computed from (`Node.Settled`).

Whether a memo fits is settled at the node and below each child (`fits_iff`).
While a node is being computed nothing is noted of it, and only the nodes below
matter (`Node.Open`); what is noted there later on adds to the memo, so a node
that was settled stays so (`Ready.withChild`).

`Proofs/Evaluation/Course` shows that evaluations keep to both, and
`Proofs/Evaluation/Recall` says which results are found.
-/
import UnitCalc.Evaluation.Progress
import UnitCalc.Expr.Basic

namespace UnitCalc

-- ==================================================================== results

/-- The two results of a node. -/
inductive Entry where
  | value
  | normalized
  deriving DecidableEq, Repr

/-- A result of a node: its value, or its value in the canonical unit. -/
inductive Result where
  | value (v : Value)
  | normalized (x : Float)
  deriving DecidableEq, Repr

/-- A request for a result of the node that a path leads to. -/
structure Request where
  path : List Nat
  entry : Entry
  deriving DecidableEq, Repr

/-- A request at a child is a request at the node above it. -/
def Request.below (i : Nat) (r : Request) : Request :=
  { r with path := i :: r.path }

namespace Memo

variable {m m' m'' c : Memo} {v : Value} {x : Float} {i : Nat}

/-- A result of the node. -/
def result? (m : Memo) : Entry → Option Result
  | .value => m.value?.map .value
  | .normalized => m.normalized?.map .normalized

/-- The memo of the node that a path leads to. -/
def along (m : Memo) (path : List Nat) : Memo :=
  path.foldl child m

/-- The result that is asked for. -/
def find? (m : Memo) (r : Request) : Option Result :=
  (m.along r.path).result? r.entry

theorem find?_nil (m : Memo) (entry : Entry) : m.find? ⟨[], entry⟩ = m.result? entry :=
  rfl

theorem find?_below (m : Memo) (i : Nat) (r : Request) :
    m.find? (r.below i) = (m.child i).find? r :=
  rfl

theorem along_fresh (path : List Nat) : fresh.along path = fresh := by
  induction path with
  | nil => rfl
  | cons i path ih => exact ih

theorem find?_fresh (r : Request) : fresh.find? r = none := by
  rw [find?, along_fresh]
  cases r.entry <;> rfl

-- ================================================================== additions

/-- Every result of one memo is a result of another. -/
def Extends (m m' : Memo) : Prop :=
  ∀ r result, m.find? r = some result → m'.find? r = some result

theorem Extends.refl (m : Memo) : m.Extends m :=
  fun _ _ h => h

theorem Extends.trans (h : m.Extends m') (h' : m'.Extends m'') : m.Extends m'' :=
  fun r result hfound => h' r result (h r result hfound)

/-- One memo adds to another if it does so at the node and at each child. -/
theorem Extends.of_nodes
    (hnode : ∀ entry result, m.result? entry = some result → m'.result? entry = some result)
    (hchildren : ∀ i, (m.child i).Extends (m'.child i)) : m.Extends m' := by
  rintro ⟨path, entry⟩ result hfound
  cases path with
  | nil => exact hnode entry result hfound
  | cons i path => exact hchildren i ⟨path, entry⟩ result hfound

theorem Extends.child (h : m.Extends m') (i : Nat) : (m.child i).Extends (m'.child i) :=
  fun r result hfound => h (r.below i) result hfound

theorem Extends.find?_isSome (h : m.Extends m') {r : Request} (hfound : (m.find? r).isSome) :
    (m'.find? r).isSome := by
  obtain ⟨result, hresult⟩ := Option.isSome_iff_exists.1 hfound
  rw [h r result hresult]
  rfl

/-- What another memo lacks that adds to it, a memo lacks. -/
theorem Extends.find?_eq_none (h : m.Extends m') {r : Request} (hnone : m'.find? r = none) :
    m.find? r = none := by
  rw [← Option.not_isSome_iff_eq_none] at hnone ⊢
  exact fun hfound => hnone (h.find?_isSome hfound)

theorem Extends.value? (h : m.Extends m') (hvalue : m.value?.isSome) : m'.value?.isSome := by
  have hfound := @Extends.find?_isSome m m' h ⟨[], .value⟩
  rw [find?_nil, find?_nil, result?, result?, Option.isSome_map, Option.isSome_map] at hfound
  exact hfound hvalue

theorem Extends.normalized? (h : m.Extends m') (hnormalized : m.normalized?.isSome) :
    m'.normalized?.isSome := by
  have hfound := @Extends.find?_isSome m m' h ⟨[], .normalized⟩
  rw [find?_nil, find?_nil, result?, result?, Option.isSome_map, Option.isSome_map] at hfound
  exact hfound hnormalized

theorem extends_withChild (h : (m.child i).Extends c) : m.Extends (m.withChild i c) := by
  refine Extends.of_nodes (fun entry result hfound => ?_) fun j => ?_
  · cases entry <;> exact hfound
  · rw [child_withChild]
    split
    · next heq => exact heq ▸ h
    · exact Extends.refl _

theorem extends_withValue (hnone : m.value? = none) : m.Extends (m.withValue v) := by
  refine Extends.of_nodes (fun entry result hfound => ?_) fun j => Extends.refl _
  cases entry with
  | value =>
      rw [result?, hnone] at hfound
      cases hfound
  | normalized => exact hfound

theorem extends_withNormalized (hnone : m.normalized? = none) :
    m.Extends (m.withNormalized x) := by
  refine Extends.of_nodes (fun entry result hfound => ?_) fun j => Extends.refl _
  cases entry with
  | value => exact hfound
  | normalized =>
      rw [result?, hnone] at hfound
      cases hfound

end Memo

-- ============================================================== settled nodes

namespace Node

variable {n : Node} {e : Expr} {m c : Memo} {v : Value} {x : Float} {i : Nat}

/-- Whether some expressions are the children of a node from an index on. -/
def HasFrom (n : Node) (index : Nat) (es : List Expr) : Prop :=
  ∀ i e, es[i]? = some e → n.children[index + i]? = some e

theorem HasFrom.head {es : List Expr} {index : Nat} (h : n.HasFrom index (e :: es)) :
    n.children[index]? = some e :=
  h 0 e rfl

theorem HasFrom.tail {es : List Expr} {index : Nat} (h : n.HasFrom index (e :: es)) :
    n.HasFrom (index + 1) es := by
  intro i e' he'
  rw [Nat.add_assoc, Nat.add_comm 1]
  exact h (i + 1) e' he'

theorem hasFrom_call (function : FunctionSymbol) (arguments : List Expr) (position : Nat) :
    (inner (.call function arguments position)).HasFrom 0 arguments := by
  intro i e he
  rw [Nat.zero_add]
  exact he

/-- Whether there is what the value of a node is computed from: the values of
the nodes below and, for an operator, those in the canonical unit. -/
structure Ready (n : Node) (m : Memo) : Prop where
  children : ∀ i, i < n.children.length → (m.child i).value?.isSome
  operands : ∀ operator left right position, n = inner (.binary operator left right position) →
    (m.child 0).normalized?.isSome ∧ (m.child 1).normalized?.isSome

/-- An operator is ready with a value and one in the canonical unit on each side. -/
theorem ready_binary {operator : OperatorSymbol} {left right : Expr} {position : Nat}
    (hleft : (m.child 0).value?.isSome) (hright : (m.child 1).value?.isSome)
    (hx : (m.child 0).normalized?.isSome) (hy : (m.child 1).normalized?.isSome) :
    (inner (.binary operator left right position)).Ready m := by
  constructor
  · intro i hi
    have hlt : i < 2 := hi
    obtain rfl | rfl : i = 0 ∨ i = 1 := by omega
    · exact hleft
    · exact hright
  · exact fun _ _ _ _ _ => ⟨hx, hy⟩

/-- Whether a node has no result without those that it is computed from. -/
structure Settled (n : Node) (m : Memo) : Prop where
  value : m.normalized?.isSome → m.value?.isSome
  below : m.value?.isSome → n.Ready m

/-- Whether a memo fits a tree: each of its nodes is settled. -/
def Fits (n : Node) (m : Memo) : Prop :=
  ∀ path n', n.at? path = some n' → n'.Settled (m.along path)

/-- Whether a memo fits below a node of which nothing is noted. -/
structure Open (n : Node) (m : Memo) : Prop where
  value : m.value? = none
  normalized : m.normalized? = none
  below : ∀ i e, n.children[i]? = some e → (inner e).Fits (m.child i)

/-- Whether a memo fits is settled at the node and below each child. -/
theorem fits_iff : n.Fits m ↔
    n.Settled m ∧ ∀ i e, n.children[i]? = some e → (inner e).Fits (m.child i) := by
  constructor
  · intro h
    refine ⟨h [] n rfl, fun i e he path n' hn' => h (i :: path) n' ?_⟩
    rw [at?, he]
    exact hn'
  · rintro ⟨hnode, hbelow⟩ path n' hn'
    -- A path ends at the node or goes on below one of its children.
    cases path with
    | nil =>
        cases hn'
        exact hnode
    | cons i path =>
        rw [at?] at hn'
        obtain ⟨e, he, hn'⟩ := Option.bind_eq_some_iff.1 hn'
        exact hbelow i e he path n' hn'

theorem fits_fresh (n : Node) : n.Fits Memo.fresh := by
  intro path n' _
  rw [Memo.along_fresh]
  exact ⟨fun h => absurd h (by decide), fun h => absurd h (by decide)⟩

/-- Adding to the memo of a child takes nothing away that a value is computed
from. -/
theorem Ready.withChild (h : n.Ready m) (hadds : (m.child i).Extends c) :
    n.Ready (m.withChild i c) := by
  have hextends := Memo.extends_withChild hadds
  constructor
  · exact fun j hj => (hextends.child j).value? (h.children j hj)
  · intro operator left right position hn
    obtain ⟨hleft, hright⟩ := h.operands operator left right position hn
    exact ⟨(hextends.child 0).normalized? hleft, (hextends.child 1).normalized? hright⟩

/-- A memo still fits when it is added to at a child. -/
theorem Fits.withChild (h : n.Fits m) (he : n.children[i]? = some e) (hc : (inner e).Fits c)
    (hadds : (m.child i).Extends c) : n.Fits (m.withChild i c) := by
  obtain ⟨hsettled, hbelow⟩ := fits_iff.1 h
  refine fits_iff.2 ⟨⟨hsettled.value, fun hv => (hsettled.below hv).withChild hadds⟩, ?_⟩
  intro j e' he'
  -- The memo of that child is replaced; those of the others are what they were.
  rw [Memo.child_withChild]
  split
  · next heq =>
      subst heq
      rw [he] at he'
      cases he'
      exact hc
  · exact hbelow j e' he'

theorem Open.withChild (h : n.Open m) (he : n.children[i]? = some e) (hc : (inner e).Fits c) :
    n.Open (m.withChild i c) := by
  refine ⟨h.value, h.normalized, fun j e' he' => ?_⟩
  rw [Memo.child_withChild]
  split
  · next heq =>
      subst heq
      rw [he] at he'
      cases he'
      exact hc
  · exact h.below j e' he'

theorem Fits.child (h : n.Fits m) (he : n.children[i]? = some e) : (inner e).Fits (m.child i) :=
  (fits_iff.1 h).2 i e he

/-- Where a memo fits, a node without a value has nothing noted of it. -/
theorem Fits.isOpen (h : n.Fits m) (hnone : m.value? = none) : n.Open m := by
  obtain ⟨hsettled, hbelow⟩ := fits_iff.1 h
  refine ⟨hnone, ?_, hbelow⟩
  cases hx : m.normalized? with
  | none => rfl
  | some x =>
      have hvalue := hsettled.value (by rw [hx]; rfl)
      rw [hnone] at hvalue
      cases hvalue

theorem Open.fits (h : n.Open m) : n.Fits m := by
  refine fits_iff.2 ⟨⟨fun hx => ?_, fun hv => ?_⟩, h.below⟩
  · rw [h.normalized] at hx
    cases hx
  · rw [h.value] at hv
    cases hv

/-- The value of a node is noted when all is there that it is computed
from. -/
theorem Open.withValue (h : n.Open m) (hready : n.Ready m) : n.Fits (m.withValue v) :=
  fits_iff.2 ⟨⟨fun _ => rfl, fun _ => ⟨hready.children, hready.operands⟩⟩, h.below⟩

/-- The normalized value of a node is noted when the value is there. -/
theorem Fits.withNormalized (h : n.Fits m) (hvalue : m.value?.isSome) :
    n.Fits (m.withNormalized x) := by
  obtain ⟨hsettled, hbelow⟩ := fits_iff.1 h
  have hready := hsettled.below hvalue
  exact fits_iff.2 ⟨⟨fun _ => hvalue, fun _ => ⟨hready.children, hready.operands⟩⟩, hbelow⟩

end Node

end UnitCalc
