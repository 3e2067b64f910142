/-
How parsing ends.

Every move of a scan goes forward in the source, whatever the table: a word
without characters is never found, it can only end the scan with a fault
(`Scan.next?_advances`). So a scan comes to its end, and each later stage goes
once through a list.

By a readable table what is then left is a tree or a report of one of three
kinds. That these are all is put together from what the stages answer
(`Tree.ofSource_answers`). That the guard of the reduction against calls that
do not nest is never among the reports is seen from the ends that a reduction
can have, of which none is refused for this reason
(`Tree.ofSource_unguarded`).

# On a call stack

One ending remains that no stage reports. The built tree is measured by calls
that call themselves, one pending call for each level, before the limits on
trees are looked at; and where the stack has no room for this, parsing is
broken off. Whether it comes to this is decided by the tree and the room
alone (`Calculator.parseOn_eq`), so parsing ends in one of the reported ways
exactly where it does not (`Calculator.parseOn_ends`). Under the standard
limits a sum of some two thousand characters is enough to exhaust the stack
of an interpreter (`Calculator.overflows_sum`).
-/
import UnitCalc.Proofs.Evaluation.Outcomes
import UnitCalc.Proofs.Parsing.Measured
import UnitCalc.Proofs.Parsing.Sums
import UnitCalc.Proofs.Scan.Collecting

namespace UnitCalc

open Text

-- ================================================================== moves

variable {t : SymbolTable} {units : UnitRegistry} {limits : Limits} {source : String}

/-- What a move emits is at least one character and no more than are left. -/
theorem Lexicon.length_of_emit {s : Scan} {c : Char} {tail : List Char} {kind : SegmentKind}
    {text : String} (h : (Lexicon.of t units).move s c tail = .ok (.emit kind text)) :
    0 < text.length ∧ text.length ≤ (c :: tail).length := by
  obtain ⟨hne, hbegins⟩ := Lexicon.begins_of_emit h
  rw [← String.length_toList]
  exact ⟨List.length_pos_iff.2 (by simpa using hne), hbegins.length_le⟩

/-- Every move goes forward, by as many characters as it takes. -/
theorem Scan.next?_advances {s s' : Scan} (h : next? (.of t units) s = some s') :
    s.position < s'.position
      ∧ s'.position + s'.rest.length = s.position + s.rest.length := by
  obtain ⟨c, tail, move, hrest, hmove, rfl⟩ := next?_eq_some h
  rw [hrest]
  cases move with
  | keep =>
      simp only [apply, List.length_cons]
      omega
  | skip =>
      simp only [apply, List.length_cons]
      omega
  | emit kind text =>
      obtain ⟨hpos, hle⟩ := Lexicon.length_of_emit hmove
      rw [List.length_cons] at hle
      simp only [apply, List.length_drop, List.length_cons]
      omega

-- ================================================================= parsing

/-- The guard against calls that do not nest never reports. -/
theorem Tree.ofSource_unguarded (ht : t.Readable) {error : ExpressionError}
    (h : Tree.ofSource? t units limits source = .error (.expression error)) :
    error.cause ≠ .reduction .malformedNesting := by
  have hsegments := Segment.ofSource_answers ht units limits source
  unfold Tree.ofSource? at h
  generalize Segment.ofSource? (.of t units) limits source = answer at hsegments h
  cases hsegments with
  | reported hkind =>
      cases h
      intro hcause
      rw [ExpressionError.kind, hcause] at hkind
      cases hkind
  | @ok segments hregistered =>
      have hreduced := Reduction.reduced ⟨t.operators, limits, source⟩ segments
      have hinstructions : Answers (fun kind => kind = .limitExceeded ∨ kind = .reduction)
          (fun instructions => ∀ i ∈ instructions, Instruction.Known t i)
          (Instruction.ofSegments? ⟨t.operators, limits, source⟩ segments) :=
        Instruction.ofSegments_answers hregistered
      replace h : Tree.ofSegments? t limits source segments = .error (.expression error) := h
      unfold Tree.ofSegments? at h
      generalize Instruction.ofSegments? ⟨t.operators, limits, source⟩ segments = answer
        at hreduced hinstructions h
      cases hreduced with
      | refused x reason hguarded _ =>
          cases h
          simpa using hguarded
      | overfull _ =>
          cases h
          nofun
      | taken instructions _ _ _ =>
          cases hinstructions with
          | ok hknown =>
              have hbuilt : Answers (fun kind => kind = .limitExceeded ∨ kind = .build)
                  (fun tree => tree.source = source ∧ tree.child.Over t)
                  (Tree.ofInstructions? t limits source instructions) :=
                Tree.ofInstructions_answers hknown
              replace h : Tree.ofInstructions? t limits source instructions
                  = .error (.expression error) := h
              rw [h] at hbuilt
              cases hbuilt with
              | reported hkind =>
                  intro hcause
                  rw [ExpressionError.kind, hcause] at hkind
                  rcases hkind with hkind | hkind <;> cases hkind

namespace Calculator

/-- Parsing by a readable table answers a tree, or reports that a limit is
exceeded, that the segments cannot be reduced or that no tree can be built. -/
theorem parse_ends {c : Calculator} (hreadable : c.symbols.Readable) (source : String) :
    (∃ tree, c.parse source = .ok tree ∧ tree.source = source ∧ tree.child.Over c.symbols)
      ∨ ∃ error, c.parse source = .error (.expression error) ∧ error.kind.OfParsing
        ∧ error.cause ≠ .reduction .malformedNesting := by
  have hparse : Answers ErrorKind.OfParsing
      (fun tree => tree.source = source ∧ tree.child.Over c.symbols) (c.parse source) :=
    Tree.ofSource_answers hreadable c.units
  cases hanswer : c.parse source with
  | ok tree =>
      rw [hanswer] at hparse
      cases hparse with
      | ok hgood => exact Or.inl ⟨tree, rfl, hgood⟩
  | error fault =>
      rw [hanswer] at hparse
      cases hparse with
      | @reported error hkind =>
          exact Or.inr ⟨error, rfl, hkind, Tree.ofSource_unguarded hreadable hanswer⟩

-- ===================================================== on a call stack

/-- Parsing by a readable table answers a tree or reports an error of one of
three kinds exactly if measuring the built tree does not exhaust the stack;
otherwise it is broken off, by any table. And by any table a scan only goes
forward. -/
theorem parseOn_ends (c : Calculator) (stack : CallStack) (source : String) :
    (c.symbols.Readable →
      ((∃ tree, c.parseOn stack source = .ok tree ∧ tree.source = source
            ∧ tree.child.Over c.symbols)
          ∨ (∃ error, c.parseOn stack source = .error (.fault (.expression error))
            ∧ error.kind.OfParsing ∧ error.cause ≠ .reduction .malformedNesting)
        ↔ ¬ c.Overflows stack source))
    ∧ (c.parseOn stack source = .error .stackExhausted ↔ c.Overflows stack source)
    ∧ ∀ s s' : Scan, Scan.next? (.of c.symbols c.units) s = some s' →
      s.position < s'.position
        ∧ s'.position + s'.rest.length = s.position + s.rest.length := by
  rw [c.parseOn_eq]
  by_cases hoverflows : c.Overflows stack source
  · rw [if_pos hoverflows]
    refine ⟨fun _ => ⟨?_, fun h => absurd hoverflows h⟩, ⟨fun _ => hoverflows, fun _ => rfl⟩,
      fun s s' hnext => Scan.next?_advances hnext⟩
    rintro (⟨tree, htree, -⟩ | ⟨error, herror, -⟩)
    · cases htree
    · cases herror
  · rw [if_neg hoverflows]
    refine ⟨fun hreadable => ⟨fun _ => hoverflows, fun _ => ?_⟩,
      ⟨fun h => ?_, fun h => absurd h hoverflows⟩, fun s s' hnext => Scan.next?_advances hnext⟩
    · rcases parse_ends hreadable source with ⟨tree, htree, hgood⟩ | ⟨error, herror, hkind⟩
      · exact Or.inl ⟨tree, by rw [htree, mapError_ok], hgood⟩
      · exact Or.inr ⟨error, by rw [herror, mapError_error], hkind⟩
    · cases hparse : c.parse source with
      | ok tree =>
          rw [hparse] at h
          cases h
      | error fault =>
          rw [hparse] at h
          cases h

/-- The standard calculator with a function that has no name. -/
def nameless : Calculator :=
  .of (SymbolTable.standard.addFunction
    { name := "", implementation := Numeric.deterministic fun _ => .ok (.number 0.0) }) none {}

/-- A call with an argument of nothing is reported on the stack of an
interpreter; and a table with a name of no characters takes the scan from a
digit over the gap to the next one. -/
theorem parseOn_ends_emptyArgument :
    SymbolTable.standard.Readable
      ∧ (∃ error, (Calculator.of .standard none {}).parseOn .standard "max(1,,2)"
          = .error (.fault (.expression error))
        ∧ error.kind.OfParsing ∧ error.cause ≠ .reduction .malformedNesting)
      ∧ ∃ s', Scan.next? (.of nameless.symbols nameless.units) { rest := ['1', ' '] } = some s'
        ∧ 0 < s'.position := by
  refine ⟨standard_readable, ?_, ?_⟩
  · have hroom : ¬ (Calculator.of .standard none {}).Overflows .standard "max(1,,2)" := by
      decide +kernel
    have hrefused :
        ((Calculator.of .standard none {}).parseOn .standard "max(1,,2)").toOption.isNone
          = true := by
      decide +kernel
    obtain ⟨hends, -, -⟩ := parseOn_ends (.of .standard none {}) .standard "max(1,,2)"
    rcases (hends standard_readable).2 hroom with ⟨tree, htree, -⟩ | hreported
    · rw [htree] at hrefused
      cases hrefused
    · exact hreported
  · have hmoves : ∃ s', Scan.next? (.of nameless.symbols nameless.units)
        { rest := ['1', ' '] } = some s' := ⟨_, rfl⟩
    obtain ⟨s', hnext⟩ := hmoves
    exact ⟨s', hnext, ((parseOn_ends nameless .standard "").2.2 _ s' hnext).1⟩

/-- A sum of ones goes too deep for a stack with less room than it has
summands, whatever the limits on nodes and depth. -/
theorem overflows_sum {config : Config} {stack : CallStack} {n : Nat}
    (hlength : (2 * n + 1 : Nat) ≤ config.limits.expressionLength) (hroom : stack.room ≤ n + 2) :
    (Calculator.of .standard none config).Overflows stack (sumOfOnes n) := by
  obtain ⟨tree, hbuilt, hdepth⟩ :=
    Tree.built_sum (.number config.resolution) config.canonicalUnit hlength
  refine ⟨tree, hbuilt, ?_⟩
  have hreach : tree.depth < tree.reach stack.passing := Tree.depth_lt_reach
  omega

/-- With the standard settings a one with a thousand ones added to it is not
parsed on the stack of an interpreter, although it is half as long as a source
may be. -/
theorem parseOn_thousand :
    SymbolTable.standard.Readable
      ∧ ((sumOfOnes 1000).length : Int) ≤ Limits.standard.expressionLength
      ∧ (Calculator.of .standard none {}).parseOn .standard (sumOfOnes 1000)
        = .error .stackExhausted
      ∧ ¬ ((∃ tree, (Calculator.of .standard none {}).parseOn .standard (sumOfOnes 1000)
            = .ok tree)
        ∨ ∃ error, (Calculator.of .standard none {}).parseOn .standard (sumOfOnes 1000)
            = .error (.fault (.expression error))) := by
  have hoverflows : (Calculator.of .standard none {}).Overflows .standard (sumOfOnes 1000) :=
    overflows_sum (by decide) (by decide)
  have hbroken : (Calculator.of .standard none {}).parseOn .standard (sumOfOnes 1000)
      = .error .stackExhausted := by
    rw [parseOn_eq, if_pos hoverflows]
  refine ⟨standard_readable, ?_, hbroken, ?_⟩
  · rw [length_sumOfOnes]
    decide
  · rw [hbroken]
    rintro (⟨tree, htree⟩ | ⟨error, herror⟩)
    · cases htree
    · cases herror

end Calculator

end UnitCalc
