/-
What a calculation in the standard language comes to.

Whatever the source, the settings and the dice, that is an outcome, unless the
evaluation strands on the remainder of an infinite number
(`calculate_standard_iff`). That fault alone is passed on instead of being
reported.

# The stages

* Parsing answers a tree over the standard symbols, or an error of parsing
  (`Tree.ofSource_answers`). Either is an outcome.
* The evaluation ends with a plain value, an error, or stranded
  (`Expr.compute_ends`, in `Proofs/Evaluation/Stranding`).
* A plain value is normalized, or it cannot be converted, which makes it an
  outcome without a number (`Node.normalize_answers`).

An attempt turns the errors of the expression into answers and passes on the
rest (`run_attempt`). So the three ends of the evaluation are the three cases
of `Node.outcome_ends`. The resolution has to be positive for the registry of
lengths to divide by it.
-/
import UnitCalc.Proofs.Evaluation.Stranding
import UnitCalc.Proofs.Parsing.Faults

namespace UnitCalc

-- ================================================================ attempts

namespace Evaluation

/-- What an attempt makes of an answer. -/
def attempted {α : Type} : Except Fault α → Except Fault (Except ExpressionError α)
  | .ok a => .ok (.ok a)
  | .error (.expression error) => .ok (.error error)
  | .error fault => .error fault

theorem run_attempt {α : Type} (act : Evaluation α) (p : Progress) :
    (attempt act).run p = (attempted (act.run p).1, (act.run p).2) := by
  -- Only the run from `p` matters, so the act may as well be constant.
  have hconstant : ∀ result : Except Fault α × Progress,
      (attempt (fun _ => result : Evaluation α)).run p = (attempted result.1, result.2) := by
    rintro ⟨answer, after⟩
    cases answer with
    | ok a => rfl
    | error fault => cases fault <;> rfl
  exact hconstant (act.run p)

end Evaluation

-- ================================================================ outcomes

/-- Whether the evaluation of a source strands. -/
def Calculator.Strands (c : Calculator) (source : String) (journal : Journal) : Prop :=
  ∃ tree, c.parse source = .ok tree ∧ tree.child.Strands (c.environment source) { journal }

/-- A plain value that has been evaluated is normalized, or cannot be
converted. -/
theorem Node.normalize_answers {env : Environment} (henv : env.Regular) {n : Node} {v : Value}
    (hv : v.Plain) {p : Progress} (hknown : (n.evaluate env).run p = (.ok v, p))
    (hnone : p.memo.normalized? = none) :
    Answers (· = .conversion) (fun _ => True) ((n.normalize env).run p).1 := by
  obtain ⟨number, last, hnormalize, hplain, -⟩ := env.normalized_known n.position hknown hnone
  have hrun := hplain p.memo
  rw [Evaluation.run_ofExcept] at hrun
  have hnumber : number = env.numberOf n.position v := (congrArg Prod.fst hrun).symm
  have hfirst : ((n.normalize env).run p).1 = number := congrArg Prod.fst hnormalize
  rw [hfirst, hnumber]
  exact Environment.numberOf_answers henv n.position hv

/-- A tree has an outcome, unless its evaluation strands. -/
theorem Node.outcome_ends {env : Environment} (henv : env.Regular) {tree : Tree}
    (hover : tree.child.Over .standard) (journal : Journal) :
    ¬ tree.child.Strands env { journal }
        ∧ (∃ outcome, (((Node.root tree).outcome env).run { journal }).1 = .ok outcome)
      ∨ tree.child.Strands env { journal }
        ∧ (((Node.root tree).outcome env).run { journal }).1 = .error .undefinedRemainder := by
  have hends := Expr.compute_ends henv tree.child { journal } hover
  obtain ⟨answer, after, hroot, hcompute, hnoted⟩ := Node.tracks_root env tree { journal } rfl
  have hanswer : ((tree.child.compute env).run { journal }).1 = answer :=
    congrArg Prod.fst (hcompute Memo.fresh)
  rw [hanswer] at hends
  have hfirst := Evaluation.run_attempt ((Node.root tree).evaluate env) { journal }
  rw [hroot] at hfirst
  unfold Node.outcome
  -- Stranded, the first attempt passes the fault on; with an error, it ends with it.
  cases hends with
  | stranded hstranded =>
      rw [run_bind_error hfirst]
      exact Or.inr ⟨hstranded, rfl⟩
  | reported hkind hpassed =>
      rw [run_bind_ok hfirst]
      exact Or.inl ⟨hpassed, _, rfl⟩
  | @ok v hv hpassed =>
      left
      refine ⟨hpassed, ?_⟩
      rw [run_bind_ok hfirst]
      obtain ⟨hvalue, hnone⟩ := hnoted v rfl
      have hknown : ((Node.root tree).evaluate env).run after = (.ok v, after) :=
        Evaluation.rememberValue_known _ hvalue
      -- The value is noted by then, so that normalizing starts from it.
      have hanswers := Node.normalize_answers henv hv hknown hnone
      have hsecond := Evaluation.run_attempt ((Node.root tree).normalize env) after
      generalize (((Node.root tree).normalize env).run after).1 = number at hanswers hsecond
      show ∃ outcome, ((Evaluation.attempt ((Node.root tree).normalize env) >>= _).run after).1
        = .ok outcome
      cases hanswers with
      | ok _ =>
          rw [run_bind_ok hsecond]
          exact ⟨_, rfl⟩
      | reported hkind =>
          rw [run_bind_ok hsecond]
          simp only [hkind, ↓reduceIte]
          exact ⟨_, rfl⟩

-- ============================================================ calculations

/-- The surroundings of a calculation with a positive resolution. -/
theorem standard_regular {config : Config} (h : 0.0 < config.resolution) (source : String) :
    ((Calculator.of .standard none config).environment source).Regular where
  units := UnitRegistry.standard_total (Binary.beq_zero_of_pos h) config.canonicalUnit
  validators := by
    intro validator hvalidator v hv
    rcases standard_validator hvalidator with rfl | rfl
    · cases v with
      | text s => exact ⟨_, rfl⟩
      | number x => exact ⟨_, rfl⟩
      | integer n => exact hv.elim
      | truth b => exact hv.elim
      | null => exact hv.elim
    · exact ⟨_, rfl⟩

/-- A calculation in the standard language answers an outcome exactly if its
evaluation does not strand; otherwise the fault of the remainder escapes. -/
theorem calculate_standard_iff {config : Config} (hresolution : 0.0 < config.resolution)
    (source : String) (journal : Journal) :
    ((∃ outcome, (((Calculator.of .standard none config).calculate source).run { journal }).1
          = .ok outcome)
        ↔ ¬ (Calculator.of .standard none config).Strands source journal)
      ∧ ((((Calculator.of .standard none config).calculate source).run { journal }).1
          = .error .undefinedRemainder
        ↔ (Calculator.of .standard none config).Strands source journal) := by
  have hregular := standard_regular hresolution source
  have hparse : Answers ErrorKind.OfParsing
      (fun tree => tree.source = source ∧ tree.child.Over .standard)
      ((Calculator.of .standard none config).parse source) :=
    Tree.ofSource_answers standard_readable config.units
  generalize Calculator.of .standard none config = c at hregular hparse ⊢
  unfold Calculator.Strands Calculator.calculate
  generalize c.parse source = answer at hparse
  cases hparse with
  | reported hkind =>
      refine ⟨iff_of_true ⟨_, rfl⟩ ?_, iff_of_false nofun ?_⟩
      · rintro ⟨tree, htree, -⟩
        cases htree
      · rintro ⟨tree, htree, -⟩
        cases htree
  | @ok tree hgood =>
      have hone : (∃ tree', (.ok tree : Except Fault Tree) = .ok tree'
          ∧ tree'.child.Strands (c.environment source) { journal })
          ↔ tree.child.Strands (c.environment source) { journal } := by
        simp
      rw [hone]
      rcases Node.outcome_ends hregular hgood.2 journal with
        ⟨hpassed, houtcome⟩ | ⟨hstranded, hfault⟩
      · refine ⟨iff_of_true houtcome hpassed, iff_of_false ?_ hpassed⟩
        obtain ⟨outcome, houtcome⟩ := houtcome
        rw [houtcome]
        nofun
      · refine ⟨iff_of_false ?_ (not_not.2 hstranded), iff_of_true hfault hstranded⟩
        rw [hfault]
        nofun

/-- A remainder by an infinite number has an outcome, that of one does
not. -/
theorem calculate_remainders :
    0.0 < ({} : Config).resolution
      ∧ ¬ (Calculator.of .standard none {}).Strands "2 % 1e999" { draws := { dice := .lowest } }
      ∧ (Calculator.of .standard none {}).Strands "1e999 % 2" { draws := { dice := .lowest } } := by
  have hpositive : 0.0 < ({} : Config).resolution := by decide +kernel
  refine ⟨hpositive, ?_, ?_⟩
  · refine (calculate_standard_iff hpositive "2 % 1e999" _).1.1 ⟨?_, ?_⟩
    · exact .success (.number 2.0) (some 2.0)
    · decide +kernel
  · refine (calculate_standard_iff hpositive "1e999 % 2" _).2.1 ?_
    decide +kernel

/-- The fault of the remainder escapes. -/
theorem calculate_infinite_remainder :
    (((Calculator.of .standard none {}).calculate "1e999 % 2").run
      { journal := { draws := { dice := .lowest } } }).1 = .error .undefinedRemainder := by
  decide +kernel

end UnitCalc
