/-
Where faults are reported.

Only errors of the expression have a place in the source, and not all of them
have one. `FaultsIn` says of an answer that, if it is a fault with a place, the
place is among some; `RaisesIn` says it of every answer of a computation with a
state. Both are kept by sequencing and grow with the places, so of each stage
only the points are looked at where it raises something itself: there the place
is that of a segment or of a node.

Symbols are given no place at all, so what they raise is `nowhere`, which is
among any places. The stages are treated in `Proofs/Scan/Places`,
`Proofs/Reduction/Places` and `Proofs/Evaluation/Places`, and
`Proofs/Session/Places` puts them together.
-/
import UnitCalc.Proofs.Error.Answers

namespace UnitCalc

/-- Whether a fault has no place in the source, or one of some. -/
def Fault.PlacedIn (places : Nat → Prop) : Fault → Prop
  | .expression error => ∀ p ∈ error.position, places p
  | _ => True

/-- No place at all. -/
def nowhere (_ : Nat) : Prop := False

/-- Whether an answer, if it is a fault, is one with no place but some. -/
def FaultsIn {α : Type} (places : Nat → Prop) (answer : Except Fault α) : Prop :=
  ∀ fault, answer = .error fault → fault.PlacedIn places

/-- Whether a computation raises no fault but those, from whatever state. -/
def RaisesIn {σ α : Type} (places : Nat → Prop) (act : ExceptT Fault (StateM σ) α) : Prop :=
  ∀ s, FaultsIn places (act.run s).1

/-- The place that an answer reports, if it is a fault with one. -/
def placeOf? {α : Type} : Except Fault α → Option Nat
  | .error (.expression error) => error.position
  | _ => none

variable {places : Nat → Prop}

namespace Fault.PlacedIn

theorem bare (cause : Cause) : (Fault.bare cause).PlacedIn places := by
  intro p hp
  cases hp

theorem at_place {p : Nat} (cause : Cause) (source : Option String) (h : places p) :
    (Fault.of cause (some p) source).PlacedIn places := by
  intro q hq
  obtain rfl := Option.some.inj hq
  exact h

theorem weaken {fault : Fault} {more : Nat → Prop} (h : fault.PlacedIn places)
    (himp : ∀ p, places p → more p) : fault.PlacedIn more := by
  cases fault with
  | expression error => exact fun p hp => himp p (h p hp)
  | _ => trivial

end Fault.PlacedIn

-- ================================================================== answers

namespace FaultsIn

variable {α β : Type} {answer : Except Fault α} {f : α → Except Fault β}

theorem ok (a : α) : FaultsIn places (.ok a : Except Fault α) := by
  intro fault h
  cases h

theorem error {fault : Fault} (h : fault.PlacedIn places) :
    FaultsIn places (.error fault : Except Fault α) := by
  intro fault' hfault
  cases hfault
  exact h

theorem bind (h : FaultsIn places answer) (hf : ∀ a, answer = .ok a → FaultsIn places (f a)) :
    FaultsIn places (answer >>= f) := by
  cases answer with
  | ok a => exact hf a rfl
  | error fault => exact .error (h fault rfl)

theorem map (h : FaultsIn places answer) (g : α → β) : FaultsIn places (answer.map g) := by
  cases answer with
  | ok a => exact .ok (g a)
  | error fault => exact .error (h fault rfl)

theorem weaken {more : Nat → Prop} (h : FaultsIn places answer)
    (himp : ∀ p, places p → more p) : FaultsIn more answer :=
  fun fault hfault => (h fault hfault).weaken himp

theorem of_nowhere (h : FaultsIn nowhere answer) : FaultsIn places answer :=
  h.weaken fun _ hp => hp.elim

/-- The place that is reported is one of those. -/
theorem placeOf {p : Nat} (h : FaultsIn places answer) (hp : placeOf? answer = some p) :
    places p := by
  match answer with
  | .error (.expression error) => exact h _ rfl p hp

end FaultsIn

-- ============================================================= computations

namespace RaisesIn

variable {σ α β : Type} {act : ExceptT Fault (StateM σ) α}
  {f : α → ExceptT Fault (StateM σ) β}

theorem pure (a : α) : RaisesIn places (Pure.pure a : ExceptT Fault (StateM σ) α) :=
  fun _ => .ok a

theorem throw {fault : Fault} (h : fault.PlacedIn places) :
    RaisesIn places (MonadExcept.throw fault : ExceptT Fault (StateM σ) α) :=
  fun _ => .error h

theorem bind (h : RaisesIn places act) (hf : ∀ a, RaisesIn places (f a)) :
    RaisesIn places (act >>= f) := by
  intro s
  have hfirst := h s
  rcases hact : act.run s with ⟨answer, after⟩
  cases answer with
  | ok a =>
      rw [run_bind_ok hact]
      exact hf a after
  | error fault =>
      rw [run_bind_error hact]
      rw [hact] at hfirst
      exact .error (hfirst fault rfl)

theorem weaken {more : Nat → Prop} (h : RaisesIn places act)
    (himp : ∀ p, places p → more p) : RaisesIn more act :=
  fun s => (h s).weaken himp

theorem of_nowhere (h : RaisesIn nowhere act) : RaisesIn places act :=
  fun s => (h s).of_nowhere

end RaisesIn

end UnitCalc
