/-
Recalling results.

Where no function depends on what is drawn, a node has one answer in one
environment: `Node.scratch`, which computes it without memos, gives the same
from any progress. A memo is faithful if every result that it holds is that
answer (`Node.Faithful`), and from a faithful memo the evaluation gives that
answer too, be it noted or computed or an error, and leaves a faithful memo
behind, also where it fails (`Node.visit_recalls`).

# One answer

That one answer is what is compared: `Evaluation.Recalls` asks of a computation
that its answer from some progress be the answer that another one gives from
every progress. This is what makes `Recalls.bind` work. The later part starts
from different progresses in the two computations, and its answer must not
depend on them; the journal and the dice may differ as they like.

# Remembering

`Recalls.remember` has the three cases of looking a result up: found, computed,
failed. What is noted then is the answer, so the memo stays faithful
(`Faithful.noting`). An operator asks for the number of an operand after its
value, where the plain recursion has the value at hand; that these are numbers
of the same value is `recalls_childNumber`.

The induction over the tree is `recallsValue`, and that over paths
`visit_recalls`. `Proofs/Session/Transparency` applies it to sequences of
requests.
-/
import UnitCalc.Proofs.Evaluation.Memory
import UnitCalc.Proofs.Evaluation.Observed
import UnitCalc.Proofs.Evaluation.Uncached

namespace UnitCalc

open Evaluation

-- ============================================================== determinism

/-- Whether the answers of a function do not depend on what is drawn. -/
def FunctionSymbol.Deterministic (f : FunctionSymbol) : Prop :=
  ∀ arguments context draws draws', ((f.implementation arguments context).run draws).1
    = ((f.implementation arguments context).run draws').1

/-- Whether all functions that an expression calls are deterministic. -/
def Expr.Deterministic (e : Expr) : Prop :=
  ∀ function arguments position, call function arguments position ∈ e.preorder →
    function.Deterministic

/-- What an expression calls is called by the one above it. -/
theorem Expr.Deterministic.child {parent e : Expr} (h : parent.Deterministic)
    (he : e ∈ parent.children) : e.Deterministic := by
  intro function arguments position hmem
  refine h function arguments position ?_
  cases parent with
  | literal text place => cases he
  | binary operator left right place =>
      have hsides : e = left ∨ e = right := by simpa [children] using he
      rw [preorder, List.mem_cons, List.mem_append]
      rcases hsides with rfl | rfl
      · exact Or.inr (Or.inl hmem)
      · exact Or.inr (Or.inr hmem)
  | call f arguments' place =>
      rw [preorder]
      exact List.mem_cons_of_mem _ (mem_preorderAll.2 ⟨e, he, hmem⟩)

namespace Node

/-- Whether all functions that are called from a node down are
deterministic. -/
def Deterministic : Node → Prop
  | root tree => tree.child.Deterministic
  | inner e => e.Deterministic

theorem Deterministic.child {n : Node} {i : Nat} {e : Expr} (h : n.Deterministic)
    (he : n.children[i]? = some e) : e.Deterministic := by
  have hmem : e ∈ n.children := List.mem_of_getElem? he
  cases n with
  | inner parent => exact Expr.Deterministic.child h hmem
  | root tree =>
      obtain rfl : e = tree.child := List.mem_singleton.1 hmem
      exact h

/-- The value of a node, computed without memos. -/
def compute (env : Environment) : Node → Evaluation Value
  | root tree => tree.child.compute env
  | inner e => e.compute env

/-- The value of a node in the canonical unit, computed without memos. -/
def computeNumber (env : Environment) (n : Node) : Evaluation Float := do
  let v ← n.compute env
  Evaluation.ofExcept (env.numberOf n.position v)

/-- A result of a node, computed without memos. -/
def scratch (env : Environment) (n : Node) : Entry → Evaluation Result
  | .value => Result.value <$> n.compute env
  | .normalized => Result.normalized <$> n.computeNumber env

/-- What is answered to a request at a node without memos. -/
def scratchAnswer (env : Environment) (p : Progress) (n : Node) (r : Request) :
    Except Fault (Option Result) :=
  match n.at? r.path with
  | none => .ok none
  | some n' => (((n'.scratch env r.entry).run p).1).map some

/-- Whether what a memo holds is what would be computed, from wherever. -/
def Faithful (env : Environment) (n : Node) (m : Memo) : Prop :=
  ∀ r result, m.find? r = some result → ∀ p, n.scratchAnswer env p r = .ok (some result)

end Node

-- ================================================================ recalling

namespace Evaluation

variable {α β : Type} {act spec : Evaluation α} {p : Progress} {kept : Memo → Prop}

/-- From some progress a computation answers what another one answers from
every progress, and it keeps to something about the memo. -/
def Recalls (act spec : Evaluation α) (p : Progress) (kept : Memo → Prop) : Prop :=
  (∀ q, (spec.run q).1 = (act.run p).1) ∧ kept (act.run p).2.memo

namespace Recalls

theorem pure {a : α} (h : kept p.memo) : Recalls (Pure.pure a) (Pure.pure a) p kept :=
  ⟨fun _ => rfl, h⟩

theorem ofExcept (answer : Except Fault α) (h : kept p.memo) :
    Recalls (Evaluation.ofExcept answer) (Evaluation.ofExcept answer) p kept := by
  refine ⟨fun q => ?_, ?_⟩
  · rw [run_ofExcept, run_ofExcept]
  · rwa [run_ofExcept]

/-- Later parts go by the answer of earlier ones, which is the same from every
progress. -/
theorem bind {f g : α → Evaluation β} (h : Recalls act spec p kept)
    (hf : ∀ a after, (∀ q, (spec.run q).1 = .ok a) → kept after.memo →
      Recalls (f a) (g a) after kept) : Recalls (act >>= f) (spec >>= g) p kept := by
  obtain ⟨hspec, hkept⟩ := h
  rcases hact : act.run p with ⟨answer, after⟩
  rw [hact] at hspec hkept
  cases answer with
  | error fault =>
      unfold Recalls
      rw [run_bind_error hact]
      refine ⟨fun q => ?_, hkept⟩
      rcases hrun : spec.run q with ⟨answer', after'⟩
      obtain rfl : answer' = .error fault := by
        have hsame := hspec q
        rwa [hrun] at hsame
      rw [run_bind_error hrun]
  | ok a =>
      obtain ⟨hlater, hlast⟩ := hf a after hspec hkept
      unfold Recalls
      rw [run_bind_ok hact]
      refine ⟨fun q => ?_, hlast⟩
      rcases hrun : spec.run q with ⟨answer', after'⟩
      obtain rfl : answer' = .ok a := by
        have hsame := hspec q
        rwa [hrun] at hsame
      rw [run_bind_ok hrun, hlater]

theorem map (f : α → β) (h : Recalls act spec p kept) :
    Recalls (f <$> act) (f <$> spec) p kept := by
  obtain ⟨hspec, hkept⟩ := h
  refine ⟨fun q => ?_, ?_⟩
  · rw [run_map, run_map, hspec]
  · rwa [run_map]

/-- What is remembered is what was computed. -/
theorem remember {known : Memo → Option α} {note : Memo → α → Memo} (hkept : kept p.memo)
    (hknown : ∀ a, known p.memo = some a → ∀ q, (spec.run q).1 = .ok a)
    (hnote : ∀ a m, (∀ q, (spec.run q).1 = .ok a) → kept m → kept (note m a))
    (h : Recalls act spec p kept) : Recalls (Evaluation.remember known note act) spec p kept := by
  cases hcase : known p.memo with
  | some a =>
      have hrun : (Evaluation.remember known note act).run p = (.ok a, p) := remember_known hcase
      unfold Recalls
      rw [hrun]
      exact ⟨hknown a hcase, hkept⟩
  | none =>
      obtain ⟨hspec, hlast⟩ := h
      rcases hact : act.run p with ⟨answer, after⟩
      rw [hact] at hspec hlast
      cases answer with
      | error fault =>
          have hrun : (Evaluation.remember known note act).run p = (.error fault, after) :=
            remember_error hcase hact
          unfold Recalls
          rw [hrun]
          exact ⟨hspec, hlast⟩
      | ok a =>
          have hrun : (Evaluation.remember known note act).run p
              = (.ok a, { after with memo := note after.memo a }) := remember_ok hcase hact
          unfold Recalls
          rw [hrun]
          exact ⟨hspec, hnote a _ hspec hlast⟩

end Recalls

end Evaluation

-- ================================================================== the tree

variable {env : Environment} {n : Node} {e : Expr} {m c : Memo} {p : Progress} {i : Nat}

namespace Node

theorem scratchAnswer_nil (env : Environment) (p : Progress) (n : Node) (entry : Entry) :
    n.scratchAnswer env p ⟨[], entry⟩ = ((n.scratch env entry).run p).1.map some :=
  rfl

theorem scratchAnswer_cons (he : n.children[i]? = some e) (p : Progress) (path : List Nat)
    (entry : Entry) :
    n.scratchAnswer env p ⟨i :: path, entry⟩ = (inner e).scratchAnswer env p ⟨path, entry⟩ := by
  unfold scratchAnswer
  rw [at?, he, Option.bind_some]

theorem faithful_fresh (env : Environment) (n : Node) : n.Faithful env Memo.fresh := by
  intro r result hfound
  rw [Memo.find?_fresh] at hfound
  cases hfound

theorem Faithful.child (h : n.Faithful env m) (he : n.children[i]? = some e) :
    (inner e).Faithful env (m.child i) := by
  rintro ⟨path, entry⟩ result hfound q
  rw [← scratchAnswer_cons he]
  exact h ⟨i :: path, entry⟩ result hfound q

theorem Faithful.withChild (h : n.Faithful env m) (he : n.children[i]? = some e)
    (hc : (inner e).Faithful env c) : n.Faithful env (m.withChild i c) := by
  rintro ⟨path, entry⟩ result hfound q
  cases path with
  | nil => exact h ⟨[], entry⟩ result (by cases entry <;> exact hfound) q
  | cons j path =>
      have hbelow : (m.withChild i c).find? ⟨j :: path, entry⟩
          = ((m.withChild i c).child j).find? ⟨path, entry⟩ := rfl
      rw [hbelow, Memo.child_withChild] at hfound
      -- Below that child the new memo counts, and below the others the old one.
      split at hfound
      · next heq =>
          subst heq
          rw [scratchAnswer_cons he]
          exact hc ⟨path, entry⟩ result hfound q
      · exact h ⟨j :: path, entry⟩ result hfound q

/-- A result of the node is noted faithfully if it is what would be
computed. -/
theorem Faithful.noting {m' : Memo} (h : n.Faithful env m) (entry : Entry) (result : Result)
    (hresult : ∀ q, ((n.scratch env entry).run q).1 = .ok result)
    (hentry : m'.result? entry = some result)
    (hother : ∀ other, other ≠ entry → m'.result? other = m.result? other)
    (hchildren : ∀ i, m'.child i = m.child i) : n.Faithful env m' := by
  rintro ⟨path, other⟩ found hfound q
  cases path with
  | cons i path =>
      have hbelow : m'.find? ⟨i :: path, other⟩ = (m'.child i).find? ⟨path, other⟩ := rfl
      rw [hbelow, hchildren] at hfound
      exact h ⟨i :: path, other⟩ found hfound q
  | nil =>
      rw [Memo.find?_nil] at hfound
      -- The result that is noted, or the other one of the node.
      by_cases hsame : other = entry
      · subst hsame
        rw [hentry] at hfound
        cases hfound
        rw [scratchAnswer_nil, hresult]
        rfl
      · rw [hother other hsame] at hfound
        exact h ⟨[], other⟩ found hfound q

theorem Faithful.withValue {v : Value} (h : n.Faithful env m)
    (hv : ∀ q, ((n.compute env).run q).1 = .ok v) : n.Faithful env (m.withValue v) := by
  refine h.noting .value (.value v) (fun q => ?_) rfl (fun other hother => ?_) fun _ => rfl
  · rw [scratch, run_map, hv]
    rfl
  · cases other with
    | value => exact absurd rfl hother
    | normalized => rfl

theorem Faithful.withNormalized {x : Float} (h : n.Faithful env m)
    (hx : ∀ q, ((n.computeNumber env).run q).1 = .ok x) :
    n.Faithful env (m.withNormalized x) := by
  refine h.noting .normalized (.normalized x) (fun q => ?_) rfl (fun other hother => ?_)
    fun _ => rfl
  · rw [scratch, run_map, hx]
    rfl
  · cases other with
    | value => rfl
    | normalized => exact absurd rfl hother

/-- What is noted faithfully of a node is what would be computed. -/
theorem Faithful.scratch {entry : Entry} {result : Result} (h : n.Faithful env m)
    (hresult : m.result? entry = some result) (q : Progress) :
    ((n.scratch env entry).run q).1 = .ok result := by
  have hanswer := h ⟨[], entry⟩ result hresult q
  rw [scratchAnswer_nil] at hanswer
  obtain ⟨found, hfound, hsame⟩ := map_eq_ok.1 hanswer
  cases hsame
  exact hfound

theorem Faithful.value {v : Value} (h : n.Faithful env m) (hv : m.value? = some v) (q : Progress) :
    ((n.compute env).run q).1 = .ok v := by
  have hscratch := @Faithful.scratch env n m .value (.value v) h (by rw [Memo.result?, hv]; rfl) q
  rw [Node.scratch, run_map] at hscratch
  obtain ⟨w, hw, hsame⟩ := map_eq_ok.1 hscratch
  cases hsame
  exact hw

theorem Faithful.normalized {x : Float} (h : n.Faithful env m) (hx : m.normalized? = some x)
    (q : Progress) : ((n.computeNumber env).run q).1 = .ok x := by
  have hscratch := @Faithful.scratch env n m .normalized (.normalized x) h
    (by rw [Memo.result?, hx]; rfl) q
  rw [Node.scratch, run_map] at hscratch
  obtain ⟨y, hy, hsame⟩ := map_eq_ok.1 hscratch
  cases hsame
  exact hy

/-- A child is recalled where a node is. -/
theorem recalls_below {α : Type} {act spec : Evaluation α} (he : n.children[i]? = some e)
    (h : n.Faithful env p.memo)
    (hact : Recalls act spec { p with memo := p.memo.child i } ((inner e).Faithful env)) :
    Recalls (Evaluation.below i act) spec p (n.Faithful env) :=
  ⟨hact.1, h.withChild he hact.2⟩

/-- Whether the evaluation of a node recalls its value wherever what is noted
is faithful. -/
def RecallsValue (env : Environment) (n : Node) : Prop :=
  ∀ p : Progress, n.Faithful env p.memo →
    Recalls (n.evaluate env) (n.compute env) p (n.Faithful env)

theorem recalls_value {act : Evaluation Value} (h : n.Faithful env p.memo)
    (hact : Recalls act (n.compute env) p (n.Faithful env)) :
    Recalls (rememberValue act) (n.compute env) p (n.Faithful env) := by
  rw [rememberValue_eq]
  exact hact.remember h (fun v hv => h.value hv) fun v m hv hm => hm.withValue hv

theorem recalls_normalized (hn : n.RecallsValue env) (h : n.Faithful env p.memo) :
    Recalls (n.normalize env) (n.computeNumber env) p (n.Faithful env) := by
  unfold normalize Environment.normalized
  rw [rememberNormalized_eq]
  exact ((hn p h).bind fun v after _ hafter => .ofExcept _ hafter).remember h
    (fun x hx => h.normalized hx) fun x m hx hm => hm.withNormalized hx

theorem recalls_child (he : (inner e).RecallsValue env) (hplace : n.children[i]? = some e)
    (h : n.Faithful env p.memo) :
    Recalls (Evaluation.below i (e.evaluate env)) (e.compute env) p (n.Faithful env) :=
  recalls_below hplace h (he _ (h.child hplace))

/-- The number of a child is that of its value, once there is one. -/
theorem recalls_childNumber {v : Value} (he : (inner e).RecallsValue env)
    (hv : ∀ q, ((e.compute env).run q).1 = .ok v) (hplace : n.children[i]? = some e)
    (h : n.Faithful env p.memo) :
    Recalls (Evaluation.below i (env.normalized e.position (e.evaluate env)))
      (Evaluation.ofExcept (env.numberOf e.position v)) p (n.Faithful env) := by
  obtain ⟨hspec, hkept⟩ := recalls_below hplace h (recalls_normalized he (h.child hplace))
  refine ⟨fun q => ?_, hkept⟩
  refine Eq.trans ?_ (hspec q)
  rcases hrun : (e.compute env).run q with ⟨answer, after⟩
  obtain rfl : answer = .ok v := by
    have hanswer := hv q
    rwa [hrun] at hanswer
  have hnumber : ((inner e).computeNumber env).run q
      = (Evaluation.ofExcept (env.numberOf e.position v)).run after := run_bind_ok hrun
  rw [hnumber, run_ofExcept, run_ofExcept]

end Node

-- ================================================================ expressions

namespace Expr

variable {function : FunctionSymbol} {left right : Expr} {position : Nat}

theorem recalls_literal (env : Environment) (text : String) (position : Nat) :
    (Node.inner (literal text position)).RecallsValue env := by
  intro p hp
  rw [Node.evaluate, evaluate]
  refine Node.recalls_value hp ?_
  rw [Node.compute, compute]
  exact .pure hp

/-- An operator asks for the numbers of its operands after their values, and
gets those of the same values. -/
theorem recalls_binary {operator : OperatorSymbol} (hleft : (Node.inner left).RecallsValue env)
    (hright : (Node.inner right).RecallsValue env) :
    (Node.inner (binary operator left right position)).RecallsValue env := by
  intro p hp
  have h₀ : (Node.inner (binary operator left right position)).children[0]? = some left := rfl
  have h₁ : (Node.inner (binary operator left right position)).children[1]? = some right := rfl
  rw [Node.evaluate, evaluate]
  refine Node.recalls_value hp ?_
  rw [Node.compute, compute]
  refine (Node.recalls_child hleft h₀ hp).bind fun leftValue p₁ hleftValue hp₁ => ?_
  refine (Node.recalls_child hright h₁ hp₁).bind fun rightValue p₂ hrightValue hp₂ => ?_
  unfold Environment.combine
  rw [ofExcept_bind]
  refine (Recalls.ofExcept _ hp₂).bind fun power p₃ _ hp₃ => ?_
  rw [ofExcept_bind]
  refine (Node.recalls_childNumber hleft hleftValue h₀ hp₃).bind fun x p₄ _ hp₄ => ?_
  rw [ofExcept_bind]
  refine (Node.recalls_childNumber hright hrightValue h₁ hp₄).bind fun y p₅ _ hp₅ => ?_
  rw [ofExcept_bind]
  refine (Recalls.ofExcept _ hp₅).bind fun result p₆ _ hp₆ => ?_
  by_cases hpower : power = 0
  · simp only [hpower, ↓reduceIte]
    exact .pure hp₆
  · simp only [hpower, ↓reduceIte]
    exact .ofExcept _ hp₆

theorem recalls_checkArgument (function : FunctionSymbol) (index : Nat) (parameter : Parameter)
    (v : Value) (position : Nat) {kept : Memo → Prop} (h : kept p.memo) :
    Recalls (env.checkArgument function index parameter v position)
      (env.checkArgument function index parameter v position) p kept := by
  unfold Environment.checkArgument
  cases env.validators.get? parameter.type with
  | none => exact ⟨fun _ => rfl, h⟩
  | some validator =>
      refine (Recalls.ofExcept (validator.accepts v) h).bind fun accepted after _ hafter => ?_
      cases accepted with
      | true => exact .pure hafter
      | false => exact ⟨fun _ => rfl, hafter⟩

theorem recalls_arguments {es : List Expr} (h : ∀ e ∈ es, (Node.inner e).RecallsValue env) :
    ∀ {parameters : List Parameter} {index : Nat} {p : Progress},
      n.HasFrom index es → n.Faithful env p.memo →
      Recalls (evaluateArguments env function index es parameters)
        (computeArguments env function index es parameters) p (n.Faithful env) := by
  induction es with
  | nil =>
      intro parameters index p _ hp
      rw [evaluateArguments, computeArguments]
      · exact .pure hp
      all_goals simp
  | cons e es ih =>
      intro parameters index p hplace hp
      cases parameters with
      | nil =>
          rw [evaluateArguments, computeArguments]
          · exact .pure hp
          all_goals simp
      | cons parameter parameters =>
          rw [evaluateArguments, computeArguments]
          refine (Node.recalls_child (h e List.mem_cons_self) hplace.head hp).bind
            fun v p₁ _ hp₁ => ?_
          refine (recalls_checkArgument function index parameter v e.position hp₁).bind
            fun _ p₂ _ hp₂ => ?_
          refine (ih (fun e' he' => h e' (List.mem_cons_of_mem e he')) hplace.tail hp₂).bind
            fun values p₃ _ hp₃ => ?_
          exact .pure hp₃

/-- The implementation is carried out where the memos are of no account, and
answers as it would from scratch. -/
theorem recalls_call {arguments : List Expr} (hfunction : function.Deterministic)
    (h : ∀ e ∈ arguments, (Node.inner e).RecallsValue env) :
    (Node.inner (call function arguments position)).RecallsValue env := by
  intro p hp
  rw [Node.evaluate, evaluate]
  refine Node.recalls_value hp ?_
  rw [Node.compute, compute]
  refine (Recalls.ofExcept _ hp).bind fun _ p₁ _ hp₁ => ?_
  refine (recalls_arguments h (Node.hasFrom_call function arguments position) hp₁).bind
    fun values p₂ _ hp₂ => ?_
  have hnote : Recalls (note ⟨function, values⟩) (note ⟨function, values⟩) p₂
      ((Node.inner (call function arguments position)).Faithful env) := ⟨fun _ => rfl, hp₂⟩
  exact hnote.bind fun _ p₃ _ hp₃ => ⟨fun q => hfunction values _ _ _, hp₃⟩

mutual

theorem recallsValue (env : Environment) :
    ∀ e : Expr, e.Deterministic → (Node.inner e).RecallsValue env
  | .literal text position, _ => recalls_literal env text position
  | .binary _ left right _, h =>
      recalls_binary (recallsValue env left (h.child (by simp [children])))
        (recallsValue env right (h.child (by simp [children])))
  | .call function arguments position, h =>
      recalls_call (h function arguments position (by simp [preorder]))
        (recallsValues env arguments fun _ he => h.child he)

theorem recallsValues (env : Environment) : ∀ es : List Expr, (∀ e ∈ es, e.Deterministic) →
    ∀ e ∈ es, (Node.inner e).RecallsValue env
  | [], _, _, he => absurd he List.not_mem_nil
  | e :: es, h, e', he =>
      (List.mem_cons.1 he).elim (fun heq => heq ▸ recallsValue env e (h e List.mem_cons_self))
        (recallsValues env es (fun e' hmem => h e' (List.mem_cons_of_mem e hmem)) e')

end

end Expr

-- =================================================================== requests

namespace Node

theorem recalls_node (env : Environment) : ∀ n : Node, n.Deterministic → n.RecallsValue env
  | inner e, hn => e.recallsValue env hn
  | root tree, hn => fun _ hp =>
      recalls_value hp (recalls_child (tree.child.recallsValue env hn) rfl hp)

/-- A result of a node is recalled, be it its value or its normalized value. -/
theorem recalls_result (env : Environment) (n : Node) (entry : Entry) (p : Progress)
    (hn : n.Deterministic) (hp : n.Faithful env p.memo) :
    Recalls (n.result env entry) (n.scratch env entry) p (n.Faithful env) := by
  cases entry with
  | value => exact (recalls_node env n hn p hp).map Result.value
  | normalized => exact (recalls_normalized (recalls_node env n hn) hp).map Result.normalized

/-- What is answered to a request at any node is what is answered without
memos. -/
theorem visit_recalls (env : Environment) (entry : Entry) (path : List Nat) :
    ∀ (n : Node) (p : Progress), n.Deterministic → n.Faithful env p.memo →
      (∀ q, n.scratchAnswer env q ⟨path, entry⟩
          = ((n.visit (fun n => n.result env entry) path).run p).1)
        ∧ n.Faithful env ((n.visit (fun n => n.result env entry) path).run p).2.memo := by
  induction path with
  | nil =>
      intro n p hn hp
      obtain ⟨hspec, hkept⟩ := recalls_result env n entry p hn hp
      rw [visit, run_map]
      exact ⟨fun q => congrArg (Except.map some) (hspec q), hkept⟩
  | cons i path ih =>
      intro n p hn hp
      rw [visit]
      cases he : n.children[i]? with
      | none =>
          refine ⟨fun q => ?_, hp⟩
          rw [scratchAnswer, at?, he]
          rfl
      | some e =>
          obtain ⟨hspec, hkept⟩ := ih (inner e) { p with memo := p.memo.child i }
            (hn.child he) (hp.child he)
          refine ⟨fun q => ?_, hp.withChild he hkept⟩
          rw [scratchAnswer_cons he]
          exact hspec q

end Node

end UnitCalc
