/-
Symbol tables: the operators, functions and validators that expressions are
read and evaluated with.

The words of a table are what a source is searched for as a whole: every
function name, and every operator symbol that is longer than one character.
They are tried longest first, so that a compound name wins over a name that
begins it (`Proofs/Scan/Words`). An operator of one character is not searched
for but looked up, at the character it may be.
-/
import UnitCalc.Symbol.Operator
import UnitCalc.Symbol.Numeric

namespace UnitCalc

/-- Finds what must be registered under a symbol. -/
def Registry.require {α : Type u} [Keyed α String] (r : Registry α) (symbol : String) :
    Except Fault α :=
  match r.get? symbol with
  | some a => .ok a
  | none => .error (.unknownSymbol symbol)

/-- What is found is the entry. -/
theorem Registry.require_eq_ok {α : Type u} [Keyed α String] {r : Registry α} {symbol : String}
    {a : α} : r.require symbol = .ok a ↔ r.get? symbol = some a := by
  unfold require
  cases r.get? symbol <;> simp

/-- What is not found is an error, and there is no other. -/
theorem Registry.require_eq_error {α : Type u} [Keyed α String] {r : Registry α}
    {symbol : String} {fault : Fault} :
    r.require symbol = .error fault ↔ r.get? symbol = none ∧ fault = .unknownSymbol symbol := by
  unfold require
  cases r.get? symbol <;> simp [eq_comm]

/-- The symbols known to the calculator. -/
structure SymbolTable where
  operators : Registry OperatorSymbol := Registry.empty
  functions : Registry FunctionSymbol := Registry.empty
  validators : Registry Validator := Registry.empty

namespace SymbolTable

/-- The table without symbols. -/
def empty : SymbolTable := {}

/-- The table of arithmetic, the built-in functions and their validators. -/
def standard : SymbolTable where
  operators := Registry.ofList OperatorSymbol.standard
  functions := Registry.ofList Numeric.functions
  validators := Registry.ofList [.numeric, .string]

/-- Adds an operator. -/
def addOperator (t : SymbolTable) (o : OperatorSymbol) : SymbolTable :=
  { t with operators := t.operators.add o }

/-- Adds a function. -/
def addFunction (t : SymbolTable) (f : FunctionSymbol) : SymbolTable :=
  { t with functions := t.functions.add f }

/-- Adds a validator. -/
def addValidator (t : SymbolTable) (v : Validator) : SymbolTable :=
  { t with validators := t.validators.add v }

/-- Removes what goes by a symbol, operator or function. -/
def removeSymbol (t : SymbolTable) (symbol : String) : SymbolTable :=
  { t with operators := t.operators.remove symbol, functions := t.functions.remove symbol }

/-- Removes a validator. -/
def removeValidator (t : SymbolTable) (name : String) : SymbolTable :=
  { t with validators := t.validators.remove name }

/-- A copy of a table, with registries of its own. -/
def copy (t : SymbolTable) : SymbolTable where
  operators := t.operators.copy
  functions := t.functions.copy
  validators := t.validators.copy

/-- A copy knows the same symbols in the same order. -/
theorem copy_eq (t : SymbolTable) : t.copy = t := by
  rw [copy, Registry.copy_eq, Registry.copy_eq, Registry.copy_eq]

/-- The names of the validators, in the order of their code points. -/
def validatorNames (t : SymbolTable) : List String :=
  t.validators.keys.mergeSort fun a b => decide (a ≤ b)

/-- The symbols that are searched for as whole words, longest first, so that
a name wins over any other that begins it. -/
def words (t : SymbolTable) : List String :=
  Text.sortLabels (t.functions.keys ++ t.operators.keys.filter (1 < ·.length))

/-- The operator of a single character. -/
def operatorOf? (t : SymbolTable) (c : Char) : Option OperatorSymbol :=
  t.operators.get? (String.singleton c)

end SymbolTable

end UnitCalc
