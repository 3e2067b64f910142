/-
Random whole numbers.

`Dice` answers the draws in turn, each between the bounds it is asked for, and
carries the proof that it does, so that nothing is ever assumed of a draw but
its bounds. `Draws` remembers the bounds of every draw. A `Drawing` is a
computation that may draw and may fail; what it drew before it failed stays
drawn.

What a random function promises it promises for all dice;
`Proofs/Symbol/Random` reads it off `Dice.within`.
-/
import UnitCalc.Error.Fault

namespace UnitCalc

/-- Answers each draw, counted from zero, with a number between its
bounds. -/
structure Dice where
  pick : Nat → Int → Int → Int
  within : ∀ turn low high, low ≤ high → low ≤ pick turn low high ∧ pick turn low high ≤ high

namespace Dice

/-- Always the lower bound. -/
def lowest : Dice where
  pick _ low _ := low
  within _ _ _ h := ⟨Int.le_refl _, h⟩

/-- Always the upper bound. -/
def highest : Dice where
  pick _ _ high := high
  within _ _ _ h := ⟨h, Int.le_refl _⟩

/-- Always the middle, the lower one of two. -/
def middle : Dice where
  pick _ low high := (low + high) / 2
  within _ low high h := by omega

end Dice

/-- The dice and the bounds of the draws made so far. -/
structure Draws where
  dice : Dice
  made : List (Int × Int) := []

/-- A computation that may draw and may fail. -/
abbrev Drawing := ExceptT Fault (StateM Draws)

/-- Draws a number between two bounds. -/
def draw (low high : Int) : Drawing Int := do
  let draws ← get
  set { draws with made := draws.made ++ [(low, high)] }
  return draws.dice.pick draws.made.length low high

end UnitCalc
