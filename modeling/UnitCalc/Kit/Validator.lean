/-
Tests of arguments for validators that an application adds.

All but the built-in ones look at the text of the value. While a source is
cut they see the beginning of an argument, character by character, so a test
that refuses what it accepts when it is longer (`atLeast`) splits arguments
where one that accepts every beginning does not.
-/
import UnitCalc.Symbol.Function

namespace UnitCalc

/-- A test of a value. -/
abbrev ValueTest := Value → Except Fault Bool

namespace ValueTest

/-- Accepts everything. -/
def always : ValueTest := fun _ => .ok true

/-- Accepts nothing. -/
def never : ValueTest := fun _ => .ok false

/-- Fails on everything. -/
def failing (message : String) : ValueTest := fun _ => .error (.application message)

/-- A test of the text of the value. -/
def ofText (test : List Char → Bool) : ValueTest := fun v => .ok (test v.shown.toList)

/-- Accepts texts of at most so many characters. -/
def atMost (n : Int) : ValueTest := ofText fun cs => cs.length ≤ n

/-- Accepts texts of at least so many characters. -/
def atLeast (n : Int) : ValueTest := ofText fun cs => n ≤ cs.length

/-- Accepts texts of these characters alone. -/
def ofCharacters (characters : String) : ValueTest :=
  ofText fun cs => cs.all characters.toList.contains

/-- Accepts texts that begin a given one, or go on after it. -/
def along (lead : String) : ValueTest :=
  ofText fun cs => lead.toList.isPrefixOf cs || cs.isPrefixOf lead.toList

end ValueTest

end UnitCalc
