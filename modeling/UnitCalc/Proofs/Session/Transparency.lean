/-
Sessions in which the memos cannot be noticed.

While the symbols and the units stay and no function depends on what is drawn,
every request is answered as if nothing had been asked before, with a value or
with an error (`Session.ask_scratch`). What earlier requests have noted, also
those that failed halfway, makes no difference, and so their order makes none.

The invariant of the requests is that the memo is faithful
(`Proofs/Evaluation/Recall`): a request keeps it and is answered from it
(`ask_recalls`), and many requests keep it by induction on their list
(`performAll_recalls`). All built-in functions but `rand` depend on their
arguments alone (`FunctionSymbol.deterministic_of_mem`).
-/
import Mathlib.Control.Monad.Basic
import UnitCalc.Proofs.Evaluation.Recall
import UnitCalc.Proofs.Session.History

namespace UnitCalc

-- ================================================================= determinism

/-- A function of its arguments alone is deterministic. -/
theorem FunctionSymbol.deterministic_of_eq {f : FunctionSymbol}
    {g : List Value → Except Fault Value} (h : f.implementation = Numeric.deterministic g) :
    f.Deterministic := by
  intro arguments context draws draws'
  rw [h]
  cases hanswer : g arguments <;> simp [Numeric.deterministic, hanswer] <;> rfl

/-- All built-in functions are, but for `rand`. -/
theorem FunctionSymbol.deterministic_of_mem {f : FunctionSymbol} (h : f ∈ Numeric.functions)
    (hname : f.name ≠ "rand") : f.Deterministic := by
  simp only [Numeric.functions, List.mem_cons, List.not_mem_nil, or_false] at h
  rcases h with rfl | rfl | rfl | rfl | rfl | rfl | rfl
  · exact absurd rfl hname
  all_goals exact deterministic_of_eq rfl

namespace Session

variable {s : Session}

/-- What is answered without memos in the present surroundings. -/
def scratchAnswer (s : Session) (journal : Journal) (r : Request) : Except Fault (Option Result) :=
  (Node.root s.tree).scratchAnswer s.environment { journal } r

/-- A request is answered as without memos, and the memo is as faithful as
before. -/
theorem ask_recalls (hdet : s.tree.child.Deterministic)
    (hs : (Node.root s.tree).Faithful s.environment s.progress.memo) (r : Request) :
    (∀ journal, (s.ask r).1 = s.scratchAnswer journal r)
      ∧ (s.ask r).2.tree = s.tree ∧ (s.ask r).2.calculator = s.calculator
      ∧ (Node.root s.tree).Faithful s.environment (s.ask r).2.progress.memo := by
  obtain ⟨hspec, hkept⟩ := Node.visit_recalls s.environment r.entry r.path (.root s.tree)
    s.progress hdet hs
  rw [ask_eq, request]
  exact ⟨fun journal => (hspec { journal }).symm, rfl, rfl, hkept⟩

/-- Nor do many requests make a difference. -/
theorem performAll_recalls (hdet : s.tree.child.Deterministic)
    (hs : (Node.root s.tree).Faithful s.environment s.progress.memo) (before : List Request) :
    (s.performAll (before.map .ask)).tree = s.tree
      ∧ (s.performAll (before.map .ask)).calculator = s.calculator
      ∧ (Node.root s.tree).Faithful s.environment
        (s.performAll (before.map .ask)).progress.memo := by
  induction before generalizing s with
  | nil => exact ⟨rfl, rfl, hs⟩
  | cons r before ih =>
      obtain ⟨-, htree, hcalculator, hfaithful⟩ := ask_recalls hdet hs r
      have henvironment : (s.ask r).2.environment = s.environment := by
        rw [environment, htree, hcalculator]
        rfl
      obtain ⟨htree', hcalculator', hfaithful'⟩ := ih (s := (s.ask r).2) (htree ▸ hdet)
        (by rw [htree, henvironment]; exact hfaithful)
      rw [htree, henvironment] at hfaithful'
      exact ⟨htree'.trans htree, hcalculator'.trans hcalculator, hfaithful'⟩

/-- With deterministic functions every request is answered as from scratch,
whatever was asked before and with whatever success; so the order in which
nodes are asked makes no difference. -/
theorem ask_scratch {tree : Tree} (hdet : tree.child.Deterministic) (calculator : Calculator)
    (journal journal' : Journal) (before : List Request) (r : Request) :
    (((new tree calculator journal).performAll (before.map .ask)).ask r).1
        = (new tree calculator journal).scratchAnswer journal' r
      ∧ ∀ before' : List Request,
        (((new tree calculator journal).performAll (before.map .ask)).ask r).1
          = (((new tree calculator journal).performAll (before'.map .ask)).ask r).1 := by
  have hanswer : ∀ before : List Request,
      (((new tree calculator journal).performAll (before.map .ask)).ask r).1
        = (new tree calculator journal).scratchAnswer journal' r := by
    intro before
    obtain ⟨htree, hcalculator, hfaithful⟩ := performAll_recalls (s := new tree calculator journal)
      hdet (Node.faithful_fresh _ _) before
    generalize (new tree calculator journal).performAll (before.map .ask) = s at *
    -- Neither the tree nor the calculator has changed, so the surroundings are the same.
    have henvironment : s.environment = (new tree calculator journal).environment := by
      rw [environment, htree, hcalculator]
      rfl
    have hs : (Node.root s.tree).Faithful s.environment s.progress.memo := by
      rw [htree, henvironment]
      exact hfaithful
    rw [(ask_recalls (htree ▸ hdet) hs r).1 journal', scratchAnswer, htree, henvironment]
    rfl
  exact ⟨hanswer before, fun before' => (hanswer before).trans (hanswer before').symm⟩

/-- The sum is refused from scratch, and so it is when its operands are known
and it has been refused before. -/
theorem ask_scratch_mixed :
    mixedTree.child.Deterministic
      ∧ (((new mixedTree (.of .standard none {}) { draws := { dice := .lowest } }).performAll
        ([⟨[0, 0], .normalized⟩, ⟨[0, 1], .value⟩, ⟨[], .value⟩].map .ask)).ask ⟨[], .value⟩).1
      = .error (.of (.unitConsistency "+" 0 1) (some 7) (some "abs(2) + 3cm")) := by
  have hdet : mixedTree.child.Deterministic := by
    intro function arguments position hmem
    obtain ⟨rfl, -⟩ : function = _ ∧ arguments = _ ∧ position = _ := by
      simpa [mixedTree, Expr.preorder, Expr.preorderAll] using hmem
    exact FunctionSymbol.deterministic_of_eq rfl
  have hscratch : (new mixedTree (.of .standard none {})
      { draws := { dice := .lowest } }).scratchAnswer { draws := { dice := .lowest } } ⟨[], .value⟩
      = .error (.of (.unitConsistency "+" 0 1) (some 7) (some "abs(2) + 3cm")) := by
    decide +kernel
  exact ⟨hdet, (ask_scratch hdet _ _ _ _ _).1.trans hscratch⟩

end Session

end UnitCalc
