/-
Answers that are as they should be, or else errors of the expression.

`Answers kinds good` says both at once: a success is as `good` says, and a
failure is an error of the expression of one of some `kinds`, so none of those
that escape. Which kinds a stage can report is part of what it promises, and
stages with different promises are put in sequence after both are weakened to
a common one.

# Taking computations apart

What a success says about the steps that led to it is told by `bind_eq_ok` and
its like; they are simp lemmas, so a success of a `do` block opens into the
successes of its lines. Of a computation with a state the answer is judged that
it gives from one state or another; `run_bind_ok` and `run_bind_error` take
such a computation apart at its first step. Nearly all results about the
evaluation begin with one of these.
-/
import UnitCalc.Error.Fault

namespace UnitCalc

-- ================================================= computations with a state

section

variable {σ α β : Type} {act : ExceptT Fault (StateM σ) α} {f : α → ExceptT Fault (StateM σ) β}
  {s after : σ}

theorem run_bind_ok {a : α} (h : act.run s = (.ok a, after)) :
    (act >>= f).run s = (f a).run after := by
  rw [ExceptT.run_bind]
  simp only [bind, StateT.bind, h]

theorem run_bind_error {fault : Fault} (h : act.run s = (.error fault, after)) :
    (act >>= f).run s = (.error fault, after) := by
  rw [ExceptT.run_bind]
  simp only [bind, StateT.bind, h]
  rfl

theorem run_map (f : α → β) (act : ExceptT Fault (StateM σ) α) (s : σ) :
    (f <$> act).run s = ((act.run s).1.map f, (act.run s).2) := by
  rcases hrun : act.run s with ⟨answer, after⟩
  cases answer with
  | ok a => exact run_bind_ok hrun
  | error fault => exact run_bind_error hrun

end

-- ================================================================ successes

section

variable {α β : Type} {a : α} {b : β} {fault : Fault}

/-- A sequence succeeds if its steps succeed in turn. -/
@[simp] theorem bind_eq_ok {answer : Except Fault α} {f : α → Except Fault β} :
    (answer >>= f) = .ok b ↔ ∃ a, answer = .ok a ∧ f a = .ok b := by
  cases answer <;> simp [bind, Except.bind]

@[simp] theorem map_eq_ok {answer : Except Fault α} {f : α → β} :
    answer.map f = .ok b ↔ ∃ a, answer = .ok a ∧ f a = b := by
  cases answer <;> simp [Except.map]

@[simp] theorem pure_eq_ok {a' : α} : (pure a : Except Fault α) = .ok a' ↔ a = a' := by
  simp [pure, Except.pure]

theorem toOption_eq_some {answer : Except Fault α} :
    answer.toOption = some a ↔ answer = .ok a := by
  cases answer <;> simp [Except.toOption]

@[simp] theorem mapError_ok {ε : Type} (f : Fault → ε) :
    (Except.ok a : Except Fault α).mapError f = .ok a :=
  rfl

@[simp] theorem mapError_error {ε : Type} (f : Fault → ε) :
    (Except.error fault : Except Fault α).mapError f = .error (f fault) :=
  rfl

@[simp] theorem throw_ne_ok : (throw fault : Except Fault α) ≠ .ok a := by
  simp [throw, throwThe, MonadExceptOf.throw]

end

-- ================================================================== answers

/-- An answer as it should be, or an error of one of some kinds. -/
inductive Answers {α : Type} (kinds : ErrorKind → Prop) (good : α → Prop) :
    Except Fault α → Prop
  | ok {a : α} (h : good a) : Answers kinds good (.ok a)
  | reported {error : ExpressionError} (h : kinds error.kind) :
      Answers kinds good (.error (.expression error))

namespace Answers

variable {α β : Type} {kinds : ErrorKind → Prop} {good : α → Prop} {answer : Except Fault α}

theorem bind {f : α → Except Fault β} {better : β → Prop} (h : Answers kinds good answer)
    (hf : ∀ a, good a → Answers kinds better (f a)) : Answers kinds better (answer >>= f) := by
  cases h with
  | ok ha => exact hf _ ha
  | reported hkind => exact .reported hkind

theorem map {f : α → β} {better : β → Prop} (h : Answers kinds good answer)
    (hf : ∀ a, good a → better (f a)) : Answers kinds better (answer.map f) := by
  cases h with
  | ok ha => exact .ok (hf _ ha)
  | reported hkind => exact .reported hkind

theorem weaken {more : ErrorKind → Prop} {weaker : α → Prop} (h : Answers kinds good answer)
    (hkinds : ∀ kind, kinds kind → more kind) (hgood : ∀ a, good a → weaker a) :
    Answers more weaker answer := by
  cases h with
  | ok ha => exact .ok (hgood _ ha)
  | reported hkind => exact .reported (hkinds _ hkind)

end Answers

end UnitCalc
