/-
Where an evaluation reports.

An operator reports at its own place, a conversion at that of the operand it
was to convert, and a call at its own place or at that of the argument that
breaks its declaration: always at a node. What tests, formulas and
implementations raise has no place, or that of the call. Nothing of this
depends on what is memoized, for a result that is found is no fault
(`raises_remember`).

# The induction

It is on the expression, for places that hold of all its nodes. Each step of
an evaluation is looked at once for what it raises itself: the tests of an
operator, its formula, the expression of its result, and the two checks of a
call. `RaisesIn.bind` puts them in sequence. A request at a node is the
evaluation of that node, and the nodes below have the places as well
(`Node.visit_raises`).
-/
import UnitCalc.Proofs.Evaluation.Observed
import UnitCalc.Proofs.Expr.Listing
import UnitCalc.Proofs.Expr.Rebuild
import UnitCalc.Proofs.Symbol.Unplaced

namespace UnitCalc

variable {places : Nat → Prop}

/-- Surroundings whose tests and formulas raise faults without a place. -/
structure Environment.Unplaced (env : Environment) : Prop where
  units : env.units.Unplaced
  validators : ∀ validator ∈ env.validators.entries, validator.Unplaced

-- ============================================================ computations

namespace Evaluation

variable {α β : Type} {act : Evaluation α}

theorem raises_ofExcept {answer : Except Fault α} (h : FaultsIn places answer) :
    RaisesIn places (ofExcept answer) := by
  intro p
  rw [run_ofExcept]
  exact h

theorem raises_map (h : RaisesIn places act) (f : α → β) : RaisesIn places (f <$> act) := by
  intro p
  rw [run_map]
  exact (h p).map f

theorem raises_below (i : Nat) (h : RaisesIn places act) : RaisesIn places (below i act) :=
  fun p => h { p with memo := p.memo.child i }

theorem raises_remember {known : Memo → Option α} {note : Memo → α → Memo}
    (h : RaisesIn places act) : RaisesIn places (Evaluation.remember known note act) := by
  unfold Evaluation.remember UnitCalc.remember
  refine RaisesIn.bind (fun _ => .ok _) fun p => ?_
  split
  · exact .pure _
  · exact h.bind fun a => RaisesIn.bind (fun _ => .ok _) fun _ => .pure a

theorem raises_rememberValue {act : Evaluation Value} (h : RaisesIn places act) :
    RaisesIn places (rememberValue act) := by
  rw [rememberValue_eq]
  exact raises_remember h

theorem raises_rememberNormalized {act : Evaluation Float} (h : RaisesIn places act) :
    RaisesIn places (rememberNormalized act) := by
  rw [rememberNormalized_eq]
  exact raises_remember h

theorem raises_note (invocation : Invocation) : RaisesIn places (note invocation) :=
  fun _ => .ok _

theorem raises_warn (warning : Warning) : RaisesIn places (warn warning) :=
  fun _ => .ok _

theorem raises_drawing {draw : Drawing α} (h : RaisesIn places draw) :
    RaisesIn places (drawing draw) :=
  fun p => h p.journal.draws

end Evaluation

-- ============================================================== operators

namespace Environment

open Evaluation

variable {env : Environment}

/-- A failed conversion is reported where its value came from. -/
theorem numberOf_faults (henv : env.Unplaced) (position : Nat) (v : Value) :
    FaultsIn (· = position) (env.numberOf position v) := by
  have hnormalize := UnitRegistry.normalize_faults henv.units v env.canonicalUnit
  unfold numberOf
  generalize env.units.normalize v env.canonicalUnit = answer at hnormalize
  -- A conversion error without a place is given that of the value.
  split
  · exact .ok _
  · exact .error (.at_place _ _ rfl)
  · exact .error (hnormalize.of_nowhere _ rfl)

theorem normalized_raises (henv : env.Unplaced) {position : Nat} {evaluate : Evaluation Value}
    (h : RaisesIn places evaluate) (hposition : places position) :
    RaisesIn places (env.normalized position evaluate) := by
  refine raises_rememberNormalized (h.bind fun v => raises_ofExcept ?_)
  refine (numberOf_faults henv position v).weaken ?_
  rintro p rfl
  exact hposition

theorem applyFormula_faults (env : Environment) (operator : OperatorSymbol) (position : Nat)
    (left right : Float) :
    FaultsIn (· = position) (env.applyFormula operator position left right) := by
  unfold applyFormula
  split
  · exact .ok _
  · exact .error (.at_place _ _ rfl)
  · exact .error trivial

theorem commonPower_faults (env : Environment) (operator : OperatorSymbol) (position : Nat)
    (left right : Value) :
    FaultsIn (· = position) (env.commonPower operator position left right) := by
  unfold commonPower
  refine (env.units.unitPower_faults left).of_nowhere.bind fun leftPower _ => ?_
  refine (env.units.unitPower_faults right).of_nowhere.bind fun rightPower _ => ?_
  split
  · exact .error (.at_place _ _ rfl)
  · exact .ok _

theorem expressResult_faults (henv : env.Unplaced) (operator : OperatorSymbol)
    (left right : Value) (result : Float) :
    FaultsIn nowhere (env.expressResult operator left right result) := by
  unfold expressResult
  refine (env.units.unitOf_faults left).bind fun leftUnit? _ => ?_
  refine (env.units.unitOf_faults right).bind fun rightUnit? _ => ?_
  split
  · split
    · exact (UnitRegistry.normalizedUnit_faults henv.units _ _).bind fun _ _ =>
        (UnitRegistry.convert_faults henv.units _ _ _).bind fun _ _ => .ok _
    · exact .ok _
  · exact .ok _

-- ================================================================== calls

theorem checkArity_faults (env : Environment) (function : FunctionSymbol) (position given : Nat) :
    FaultsIn (· = position) (env.checkArity function position given) := by
  unfold checkArity
  split
  · exact .error (.at_place _ _ rfl)
  · exact .ok _

theorem checkArgument_raises (henv : env.Unplaced) (function : FunctionSymbol) (index : Nat)
    (parameter : Parameter) (v : Value) {position : Nat} (hposition : places position) :
    RaisesIn places (env.checkArgument function index parameter v position) := by
  unfold checkArgument
  split
  · exact raises_warn _
  · next validator hvalidator =>
      have hmem : validator ∈ env.validators.entries := List.mem_of_find?_eq_some hvalidator
      refine (raises_ofExcept (henv.validators validator hmem v).of_nowhere).bind fun accepted => ?_
      split
      · exact .throw (.at_place _ _ hposition)
      · exact .pure _

end Environment

-- =================================================================== trees

namespace Expr

open Evaluation

variable {env : Environment} {t : SymbolTable} {position : Nat}

/-- An operator reports at itself or at an operand it cannot convert. -/
theorem binary_raises (henv : env.Unplaced) {operator : OperatorSymbol} {left right : Expr}
    (hleft : RaisesIn places (left.evaluate env)) (hright : RaisesIn places (right.evaluate env))
    (hleftPlace : places left.position) (hrightPlace : places right.position)
    (hplace : places position) :
    RaisesIn places ((binary operator left right position).evaluate env) := by
  have hown : ∀ p, p = position → places p := by
    rintro p rfl
    exact hplace
  have hpower := fun v w => (env.commonPower_faults operator position v w).weaken hown
  have hformula := fun x y => (env.applyFormula_faults operator position x y).weaken hown
  rw [evaluate]
  refine raises_rememberValue ?_
  refine (raises_below 0 hleft).bind fun leftValue => ?_
  refine (raises_below 1 hright).bind fun rightValue => ?_
  refine (raises_ofExcept (hpower leftValue rightValue)).bind fun power => ?_
  refine (raises_below 0 (Environment.normalized_raises henv hleft hleftPlace)).bind fun x => ?_
  refine (raises_below 1 (Environment.normalized_raises henv hright hrightPlace)).bind fun y => ?_
  refine (raises_ofExcept (hformula x y)).bind fun result => ?_
  split
  · exact .pure _
  · exact raises_ofExcept (Environment.expressResult_faults henv _ _ _ _).of_nowhere

/-- A call reports at itself or in its arguments. -/
theorem call_raises {function : FunctionSymbol} {arguments : List Expr}
    (hfunction : function.PlacedAtCall)
    (hvalues : RaisesIn places
      (evaluateArguments env function 0 arguments function.parameters))
    (hplace : places position) :
    RaisesIn places ((call function arguments position).evaluate env) := by
  have hown : ∀ p, p = position → places p := by
    rintro p rfl
    exact hplace
  have harity := (env.checkArity_faults function position arguments.length).weaken hown
  rw [evaluate]
  refine raises_rememberValue ?_
  refine (raises_ofExcept harity).bind fun _ => ?_
  refine hvalues.bind fun values => (raises_note _).bind fun _ => ?_
  exact raises_drawing ((hfunction values (env.callContext position)).weaken hown)

mutual

/-- Evaluating an expression reports at one of its nodes. -/
theorem evaluate_raises (henv : env.Unplaced) (ht : t.Unplaced) (e : Expr) (he : e.Over t)
    (hplaces : ∀ e' ∈ e.preorder, places e'.position) : RaisesIn places (e.evaluate env) := by
  have hself := hplaces e e.mem_preorder_self
  match e with
  | .literal text position =>
      rw [evaluate]
      exact raises_rememberValue (.pure _)
  | .binary operator left right position =>
      obtain ⟨-, hleft, hright⟩ := he
      have hleftPlaces : ∀ e' ∈ left.preorder, places e'.position := fun e' he' =>
        hplaces e' (List.mem_cons_of_mem _ (List.mem_append_left _ he'))
      have hrightPlaces : ∀ e' ∈ right.preorder, places e'.position := fun e' he' =>
        hplaces e' (List.mem_cons_of_mem _ (List.mem_append_right _ he'))
      exact binary_raises henv (evaluate_raises henv ht left hleft hleftPlaces)
        (evaluate_raises henv ht right hright hrightPlaces)
        (hleftPlaces left left.mem_preorder_self) (hrightPlaces right right.mem_preorder_self)
        hself
  | .call function arguments position =>
      obtain ⟨hknown, harguments⟩ := he
      have hfunction := ht.functions function (List.mem_of_find?_eq_some hknown)
      have hvalues := evaluateArguments_raises henv ht function 0 arguments function.parameters
        harguments fun e' he' => hplaces e' (List.mem_cons_of_mem _ he')
      exact call_raises hfunction hvalues hself

theorem evaluateArguments_raises (henv : env.Unplaced) (ht : t.Unplaced)
    (function : FunctionSymbol) (index : Nat) (es : List Expr) (parameters : List Parameter)
    (hes : OverAll t es) (hplaces : ∀ e' ∈ preorderAll es, places e'.position) :
    RaisesIn places (evaluateArguments env function index es parameters) := by
  match es, parameters with
  | [], _ =>
      rw [evaluateArguments]
      · exact .pure _
      · simp
  | _ :: _, [] =>
      rw [evaluateArguments]
      · exact .pure _
      · simp
  | e :: es, parameter :: parameters =>
      obtain ⟨he, hes⟩ := hes
      have hself := hplaces e (List.mem_append_left _ e.mem_preorder_self)
      have hfirst := evaluate_raises henv ht e he fun e' he' =>
        hplaces e' (List.mem_append_left _ he')
      have hothers := evaluateArguments_raises henv ht function (index + 1) es parameters hes
        fun e' he' => hplaces e' (List.mem_append_right _ he')
      rw [evaluateArguments]
      refine (raises_below index hfirst).bind fun v => ?_
      refine (Environment.checkArgument_raises henv function index parameter v hself).bind
        fun _ => ?_
      exact hothers.bind fun values => .pure _

end

end Expr

-- =================================================================== nodes

namespace Node

open Evaluation

variable {env : Environment} {t : SymbolTable} {n : Node}

/-- Whether every operator and function below a node is a table's. -/
def Over (t : SymbolTable) : Node → Prop
  | root tree => tree.child.Over t
  | inner e => e.Over t

/-- Whether the node and those below it have some places. -/
def Within (places : Nat → Prop) (n : Node) : Prop :=
  ∀ n' ∈ n.preorder, places n'.position

theorem within_inner {e : Expr} :
    (inner e).Within places ↔ ∀ e' ∈ e.preorder, places e'.position := by
  simp [Within, preorder, position]

theorem within_root {tree : Tree} :
    (root tree).Within places
      ↔ places 0 ∧ ∀ e' ∈ tree.child.preorder, places e'.position := by
  simp [Within, preorder, position]

theorem Within.own (h : n.Within places) : places n.position := by
  cases n with
  | root tree => exact (within_root.1 h).1
  | inner e => exact within_inner.1 h e e.mem_preorder_self

theorem Within.children (h : n.Within places) {e : Expr} (he : e ∈ n.children) :
    (inner e).Within places := by
  refine within_inner.2 fun e' he' => ?_
  match n, he with
  | root tree, he =>
      obtain rfl := List.mem_singleton.1 he
      exact (within_root.1 h).2 e' he'
  | inner (.binary operator left right position), he =>
      refine within_inner.1 h e' (List.mem_cons_of_mem _ ?_)
      obtain rfl | rfl : e = left ∨ e = right := by simpa [Node.children, Expr.children] using he
      · exact List.mem_append_left _ he'
      · exact List.mem_append_right _ he'
  | inner (.call function arguments position), he =>
      exact within_inner.1 h e' (List.mem_cons_of_mem _ (Expr.mem_preorderAll.2 ⟨e, he, he'⟩))

theorem Over.children (h : n.Over t) {e : Expr} (he : e ∈ n.children) : e.Over t := by
  match n, he with
  | root tree, he =>
      obtain rfl := List.mem_singleton.1 he
      exact h
  | inner (.binary operator left right position), he =>
      obtain ⟨-, hleft, hright⟩ := h
      obtain rfl | rfl : e = left ∨ e = right := by simpa [Node.children, Expr.children] using he
      · exact hleft
      · exact hright
  | inner (.call function arguments position), he =>
      exact h.2.of_mem he

theorem evaluate_raises (henv : env.Unplaced) (ht : t.Unplaced) (hover : n.Over t)
    (hwithin : n.Within places) : RaisesIn places (n.evaluate env) := by
  cases n with
  | root tree =>
      exact raises_rememberValue (raises_below 0
        (tree.child.evaluate_raises henv ht hover (within_root.1 hwithin).2))
  | inner e => exact e.evaluate_raises henv ht hover (within_inner.1 hwithin)

/-- Whatever result of a node is asked for, a failure is reported at the node
or below it. -/
theorem result_raises (henv : env.Unplaced) (ht : t.Unplaced) (hover : n.Over t)
    (hwithin : n.Within places) (entry : Entry) : RaisesIn places (n.result env entry) := by
  have hvalue := evaluate_raises henv ht hover hwithin
  cases entry with
  | value => exact raises_map hvalue _
  | normalized => exact raises_map (Environment.normalized_raises henv hvalue hwithin.own) _

theorem visit_raises (henv : env.Unplaced) (ht : t.Unplaced) (entry : Entry) (path : List Nat) :
    ∀ n : Node, n.Over t → n.Within places →
      RaisesIn places (n.visit (fun n => n.result env entry) path) := by
  induction path with
  | nil => exact fun n hover hwithin => raises_map (result_raises henv ht hover hwithin entry) _
  | cons i path ih =>
      intro n hover hwithin
      rw [visit]
      split
      · next e hchild =>
          have hmem := List.mem_of_getElem? hchild
          exact raises_below i (ih (inner e) (hover.children hmem) (hwithin.children hmem))
      · exact .pure _

end Node

end UnitCalc
