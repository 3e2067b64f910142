/-
A scan reports no places.

A word without characters and a test that fails end it with a fault, and
neither knows where that is; the length of the source is checked before
anything is read. So the faults of cutting a source are among those that point
nowhere (`Segment.ofSource_faults`), as long as the tests of the table report
no places themselves, which those of the built-in table do not
(`Proofs/Symbol/Unplaced`).

It is one lemma for each function that a move asks, in the order in which it
asks them, and an induction over the run. `Proofs/Parsing/Places` adds the
places that reductions and builds report.
-/
import UnitCalc.Proofs.Scan.Moves
import UnitCalc.Proofs.Symbol.Unplaced

namespace UnitCalc

variable {t : SymbolTable}

theorem wordStands_faults (preceding : Option Char) (rest : List Char) (word : String) :
    FaultsIn nowhere (wordStands preceding rest word) := by
  unfold wordStands
  dsimp only
  split
  · split
    · exact .error trivial
    · exact .ok _
  · exact .ok _

theorem wordAt?_faults (preceding : Option Char) (rest : List Char) (words : List String) :
    FaultsIn nowhere (wordAt? preceding rest words) := by
  induction words with
  | nil => exact .ok _
  | cons word words ih =>
      rw [wordAt?]
      refine (wordStands_faults preceding rest word).bind fun stands _ => ?_
      cases stands with
      | true => exact .ok _
      | false => exact ih

/-- A test that fails says nothing of the argument's place. -/
theorem acceptedBy_faults (ht : t.Unplaced) (tentative : Value) (parameters : List Parameter) :
    FaultsIn nowhere (acceptedBy t tentative parameters) := by
  induction parameters with
  | nil => exact .ok _
  | cons parameter more ih =>
      have hrest : ∀ accepted : Bool, FaultsIn nowhere
          (if accepted = true then pure true
            else if parameter.isRequired = true then pure false
            else acceptedBy t tentative more) := by
        intro accepted
        cases accepted with
        | true => exact .ok _
        | false =>
            cases parameter.isRequired with
            | true => exact .ok _
            | false => exact ih
      rw [acceptedBy]
      split
      · next validator hvalidator =>
          have hmem : validator ∈ t.validators.entries := List.mem_of_find?_eq_some hvalidator
          exact (ht.validators validator hmem tentative).bind fun accepted _ => hrest accepted
      · exact hrest false

theorem Scan.argumentTakes_faults (ht : t.Unplaced) (s : Scan) (c : Char) :
    FaultsIn nowhere (s.argumentTakes t c) := by
  unfold argumentTakes
  split
  · exact .ok _
  · exact acceptedBy_faults ht _ _

theorem Lexicon.move_faults {lexicon : Lexicon} (ht : lexicon.symbols.Unplaced) (s : Scan)
    (c : Char) (tail : List Char) : FaultsIn nowhere (lexicon.move s c tail) := by
  unfold move
  split
  · exact .ok _
  · refine (s.argumentTakes_faults ht c).bind fun takes _ => ?_
    cases takes with
    | true => exact .ok _
    | false =>
        refine (wordAt?_faults s.preceding (c :: tail) lexicon.words).bind fun found _ => ?_
        cases found with
        | some word => exact .ok _
        | none =>
            dsimp only
            split
            · split
              · exact .ok _
              · exact .ok _
            · exact .ok _

/-- The move that fails is some move of the run. -/
theorem Scan.run_faults {lexicon : Lexicon} (ht : lexicon.symbols.Unplaced) :
    ∀ {rest : List Char} {s : Scan}, s.rest = rest → FaultsIn nowhere (run lexicon s) := by
  intro rest
  -- A failing move ends the run, so `run_preserves`, which is about runs that end well, is no
  -- help.
  induction hlength : rest.length using Nat.strongRecOn generalizing rest with
  | ind length ih =>
      intro s hrest
      cases rest with
      | nil =>
          rw [run_nil hrest]
          exact .ok s
      | cons c tail =>
          cases hmove : lexicon.move s c tail with
          | error fault =>
              rw [run_fault hrest hmove]
              exact .error (lexicon.move_faults ht s c tail fault hmove)
          | ok move =>
              rw [run_move hrest hmove]
              have hshorter := s.rest_apply_lt lexicon.symbols c tail move
              rw [hlength] at hshorter
              exact ih _ hshorter rfl rfl

theorem Limits.check_faults (name : String) (limit actual : Int) :
    FaultsIn nowhere (Limits.check name limit actual) := by
  unfold check
  split
  · exact .error (.bare _)
  · exact .ok _

/-- What goes wrong before there are segments has no place. -/
theorem Segment.ofSource_faults (lexicon : Lexicon) (ht : lexicon.symbols.Unplaced)
    (limits : Limits) (source : String) :
    FaultsIn nowhere (Segment.ofSource? lexicon limits source) :=
  (Limits.check_faults _ _ _).bind fun _ _ =>
    (Scan.run_faults ht rfl).bind fun _ _ => .ok _

end UnitCalc
