/-
Settings read from outside data.

Every name may be spelled in words joined by underscores or by capitals; of
two spellings of one setting the latter counts and the other is refused.
Numbers may come as texts. All that is wrong is reported at once, each issue
with the names that lead to it, in the order of those names.

# How it is put together

A leaf is read by a function of one datum that reports at most one issue
(`readUnit`, `readResolution`, `readLimit`); `single` makes a reader of a
setting from it, and `readField` puts the setting's name in front of whatever
is reported. What is reported and what is read go along side by side, so a
wrong part keeps none of the others from being looked at. The values count
only when nothing was reported.
-/
import UnitCalc.Config.Basic
import UnitCalc.Config.Datum
import UnitCalc.Decimal.Whole

namespace UnitCalc

/-- What is wrong with a piece of data. -/
inductive ConfigIssue where
  | notARecord
  | unknownName
  | notText
  | notAFloat
  | unreadableFloat
  | notPositive
  | notLimits
  | unknownLimit
  | fractionalInteger
  | infiniteInteger
  | oversizedInteger
  | unreadableInteger
  | notAnInteger
  | frozen
  deriving DecidableEq, Repr

/-- The name an issue is reported under. -/
def ConfigIssue.label : ConfigIssue → String
  | notARecord => "model_type"
  | unknownName => "extra_forbidden"
  | notText => "string_type"
  | notAFloat => "float_type"
  | unreadableFloat => "float_parsing"
  | notPositive => "greater_than"
  | notLimits => "dataclass_type"
  | unknownLimit => "unexpected_keyword_argument"
  | fractionalInteger => "int_from_float"
  | infiniteInteger => "finite_number"
  | oversizedInteger => "int_parsing_size"
  | unreadableInteger => "int_parsing"
  | notAnInteger => "int_type"
  | frozen => "frozen_instance"

/-- An issue and the names that lead to it. -/
structure LocatedIssue where
  issue : ConfigIssue
  location : List String
  deriving DecidableEq, Repr

namespace Config

-- ======================================================= the leaves

/-- Reads the resolution: a positive number, perhaps as text. -/
def readResolution : Datum → Except ConfigIssue Float
  | .float x => positive x
  | .integer n =>
    match Binary.ofInt? n with
    | some x => positive x
    | none => .error .notAFloat
  | .truth b => positive (if b then 1.0 else 0.0)
  | .text s =>
    match Decimal.readStrict? s.toList with
    | some x => positive x
    | none => .error .unreadableFloat
  | _ => .error .notAFloat
where
  /-- Refuses what is not above zero. -/
  positive (x : Float) : Except ConfigIssue Float :=
    if 0.0 < x then .ok x else .error .notPositive

/-- Reads a limit: a whole number, perhaps as a text, or as a float that is
smaller in magnitude than `2 ^ 63`. -/
def readLimit : Datum → Except ConfigIssue Int
  | .integer n => .ok n
  | .truth b => .ok (if b then 1 else 0)
  | .float x =>
    let meaning := Binary.ofFloat x
    match meaning.truncate?, meaning.wholeMagnitude? with
    | some n, some magnitude =>
      if magnitude < Nat.pow 2 63 then .ok n else .error .oversizedInteger
    | some _, none => .error .fractionalInteger
    | none, _ => .error .infiniteInteger
  | .text s =>
    match Decimal.readWhole s.toList with
    | .ok n => .ok n
    | .error .tooLong => .error .oversizedInteger
    | .error .unreadable => .error .unreadableInteger
  | _ => .error .notAnInteger

/-- Reads the canonical unit. -/
def readUnit : Datum → Except ConfigIssue String
  | .text s => .ok s
  | _ => .error .notText

-- ======================================================= the limits

/-- The capital spellings of the limits, in the order of `Limits.names`. -/
def limitSpellings : List String :=
  ["maxExpressionLength", "maxAstDepth", "maxAstNodes", "maxFunctionArgs"]

/-- The underscore spelling of a limit's name. -/
def limitName (name : String) : String :=
  ((limitSpellings.zip Limits.names).lookup name).getD name

/-- Sets a limit by name; a name that is no limit's sets nothing. -/
def setLimit (limits : Limits) (name : String) (n : Int) : Limits :=
  match name with
  | "max_expression_length" => { limits with expressionLength := n }
  | "max_ast_depth" => { limits with depth := n }
  | "max_ast_nodes" => { limits with nodes := n }
  | "max_function_args" => { limits with arguments := n }
  | _ => limits

/-- Reads the parts of a record of limits: every limit that is given, then
every name that is no limit's. -/
def readLimitParts (parts : List (String × Datum)) : List LocatedIssue × Limits :=
  let named := parts.map fun (name, datum) => (limitName name, datum)
  let given := Limits.names.foldl (fun (issues, limits) name =>
    match Datum.part? named name with
    | none => (issues, limits)
    | some datum =>
      match readLimit datum with
      | .ok n => (issues, setLimit limits name n)
      | .error issue => (issues ++ [⟨issue, [name]⟩], limits)) ([], Limits.standard)
  let strangers := named.filterMap fun (name, _) =>
    if Limits.names.contains name then none else some ⟨.unknownLimit, [name]⟩
  (given.1 ++ strangers, given.2)

/-- Reads the limits; null stands for the standard ones. -/
def readLimits : Datum → List LocatedIssue × Limits
  | .null => ([], Limits.standard)
  | .record parts => readLimitParts parts
  | _ => ([⟨.notLimits, []⟩], Limits.standard)

-- ==================================================== the settings

/-- The settings' names, first in the capital spelling, which wins. -/
def fieldSpellings : List (List String) :=
  [["canonicalUnit", "canonical_unit"], ["dpi"], ["expressionLimits", "expression_limits"]]

/-- The spelling of a setting that counts, and what is set. -/
def given? (parts : List (String × Datum)) (spellings : List String) : Option (String × Datum) :=
  spellings.findSome? fun name => (Datum.part? parts name).map (name, ·)

/-- Reads one setting that may be left out. -/
def readField {α : Type} (parts : List (String × Datum)) (spellings : List String)
    (read : Datum → List LocatedIssue × α) (default : α) : List LocatedIssue × α :=
  match given? parts spellings with
  | none => ([], default)
  | some (name, datum) =>
    let (issues, a) := read datum
    (issues.map fun located => { located with location := name :: located.location }, a)

/-- A reader that reports at most one issue. -/
def single {α : Type} (default : α) (read : Datum → Except ConfigIssue α) (datum : Datum) :
    List LocatedIssue × α :=
  match read datum with
  | .ok a => ([], a)
  | .error issue => ([⟨issue, []⟩], default)

/-- Puts an issue before those that are located behind it. -/
def insertIssue (a : LocatedIssue) : List LocatedIssue → List LocatedIssue
  | [] => [a]
  | b :: bs =>
    if a.location < b.location ∨ (a.location = b.location ∧ a.issue.label ≤ b.issue.label) then
      a :: b :: bs
    else b :: insertIssue a bs

/-- Reads settings, or reports all that is wrong with them. -/
def read : Datum → Except (List LocatedIssue) Config
  | .record parts =>
    let standard : Config := {}
    let unit := readField parts ["canonicalUnit", "canonical_unit"]
      (single standard.canonicalUnit readUnit) standard.canonicalUnit
    let resolution := readField parts ["dpi"]
      (single standard.resolution readResolution) standard.resolution
    let limits := readField parts ["expressionLimits", "expression_limits"]
      readLimits standard.limits
    let used := fieldSpellings.filterMap fun spellings => (given? parts spellings).map Prod.fst
    let strangers := parts.filterMap fun (name, _) =>
      if used.contains name then none else some ⟨.unknownName, [name]⟩
    match unit.1 ++ resolution.1 ++ limits.1 ++ strangers with
    | [] => .ok ⟨unit.2, resolution.2, limits.2⟩
    | issues => .error (issues.foldr insertIssue [])
  | _ => .error [⟨.notARecord, []⟩]

/-- The issue of setting a part of finished settings, which never
change. -/
def assign (name : String) : LocatedIssue :=
  ⟨.frozen, [name]⟩

end Config

end UnitCalc
