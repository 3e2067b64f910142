/-
Structured data as it comes from outside: numbers, texts, lists and records
of named parts. A record may name a part twice, and then the last one counts,
as `Datum.part?` has it.
-/
namespace UnitCalc

/-- A piece of outside data. -/
inductive Datum where
  | null
  | truth (b : Bool)
  | integer (n : Int)
  | float (x : Float)
  | text (s : String)
  | list (items : List Datum)
  | record (parts : List (String × Datum))

/-- The last part of a name, if the record has one. -/
def Datum.part? (parts : List (String × Datum)) (name : String) : Option Datum :=
  (parts.reverse.find? fun part => part.1 == name).map Prod.snd

end UnitCalc
