/-
Several symbol tables side by side, told apart by number. A copy takes the
next number and starts out equal to its model; what is done to one table
afterwards shows in no other. Values are not shared, so a copy that could be
reached through its model cannot even be said; `Proofs/Symbol/History` states
for every history of changes and copies what each table holds.
-/
import UnitCalc.Symbol.Table

namespace UnitCalc

/-- Numbered symbol tables. -/
structure Workspace where
  tables : List SymbolTable

namespace Workspace

/-- The table of a number. -/
def table? (w : Workspace) (number : Nat) : Option SymbolTable :=
  w.tables[number]?

/-- Changes the table of a number. -/
def modify (w : Workspace) (number : Nat) (f : SymbolTable → SymbolTable) : Workspace :=
  ⟨w.tables.modify number f⟩

/-- Copies a table and tells the number of the copy. -/
def copy (w : Workspace) (number : Nat) : Workspace × Nat :=
  (⟨w.tables ++ (w.tables[number]?.map SymbolTable.copy).toList⟩, w.tables.length)

/-- A change to one table leaves the others alone. -/
theorem table?_modify_ne {w : Workspace} {i j : Nat} (f : SymbolTable → SymbolTable)
    (h : i ≠ j) : (w.modify i f).table? j = w.table? j := by
  simp [modify, table?, h]

end Workspace

end UnitCalc
