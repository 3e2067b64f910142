/-
How parsing can fail.

A limit, the reduction or the building reports it, and nothing else stops it
(`Tree.ofSource_answers`).

# What a stage hands on

Each stage hands on what the next one looks up. The segments of a readable
table are registered (`Proofs/Scan/Total`), so the instructions made of them are
known (`Instruction.Known`), so every operator and function of the tree is the
table's (`Expr.Over`). Registries are asked in three places for what must be
there; by this it always is, and the failure of a lookup, which none of the
allowed kinds covers, does not come up.

# One stage

`Answers` says what an answer is like and of which kind a report is. The stages
are put together with `Answers.bind`; what their parts report is weakened to the
kinds that parsing reports. The building goes by induction on the instructions,
with a stack of trees over the table.
-/
import UnitCalc.Parsing
import UnitCalc.Proofs.Expr.Rebuild
import UnitCalc.Proofs.Reduction.Invariant
import UnitCalc.Proofs.Scan.Total

namespace UnitCalc

/-- The kinds of errors that parsing reports. -/
def ErrorKind.OfParsing (kind : ErrorKind) : Prop :=
  kind = .limitExceeded ∨ kind = .reduction ∨ kind = .build

variable {t : SymbolTable} {limits : Limits} {source : String}

-- ============================================================ instructions

/-- Whether a table has the operator or function of an instruction. -/
def Instruction.Known (t : SymbolTable) : Instruction → Prop
  | .value _ _ => True
  | .operator symbol _ => ∃ operator, t.operators.get? symbol = some operator
  | .call name _ _ => ∃ function, t.functions.get? name = some function

/-- What is made of a registered segment is known. -/
theorem Instruction.known_of_segment {i : Instruction} (h : i.segment.Registered t) :
    i.Known t := by
  cases i with
  | value text position => exact trivial
  | operator symbol position => exact h.2 rfl
  | call name position count => exact h.1 rfl

/-- A reduction answers known instructions, or reports. -/
theorem Instruction.ofSegments_answers {segments : List Segment}
    (h : ∀ x ∈ segments, x.Registered t) :
    Answers (fun kind => kind = .limitExceeded ∨ kind = .reduction)
      (fun instructions => ∀ i ∈ instructions, i.Known t)
      (Instruction.ofSegments? ⟨t.operators, limits, source⟩ segments) := by
  have hreduced := Reduction.reduced ⟨t.operators, limits, source⟩ segments
  generalize Instruction.ofSegments? ⟨t.operators, limits, source⟩ segments = answer at hreduced
  cases hreduced with
  | refused x reason _ _ => exact .reported (Or.inr rfl)
  | overfull _ => exact .reported (Or.inl rfl)
  | taken instructions _ _ hcarries =>
      -- An instruction is made of a segment that is carried, and all of those have been
      -- registered.
      refine .ok fun i hi => known_of_segment (h i.segment ?_)
      have hmem := hcarries.mem_iff.1 (List.mem_map_of_mem hi)
      exact (List.mem_filter.1 hmem).1

-- ================================================================ building

/-- One known instruction leaves trees over the table. -/
theorem Expr.buildStep_answers {stack : List Expr} {i : Instruction}
    (hstack : ∀ e ∈ stack, e.Over t) (hi : i.Known t) :
    Answers (· = .build) (fun stack' => ∀ e ∈ stack', e.Over t)
      (buildStep t source stack i) := by
  cases i with
  | value text position =>
      refine .ok fun e he => ?_
      rcases List.mem_cons.1 he with rfl | he
      · exact trivial
      · exact hstack e he
  | operator symbol position =>
      obtain ⟨operator, hoperator⟩ := hi
      have hsymbol : operator.symbol = symbol := Registry.key_of_get? hoperator
      match stack with
      | [] => exact .reported rfl
      | [_] => exact .reported rfl
      | right :: left :: below =>
          simp only [buildStep, Registry.require, hoperator, bind, Except.bind, pure, Except.pure]
          refine .ok fun e he => ?_
          rcases List.mem_cons.1 he with rfl | he
          · refine ⟨by rw [hsymbol]; exact hoperator, hstack left ?_, hstack right ?_⟩
            · exact List.mem_cons_of_mem right List.mem_cons_self
            · exact List.mem_cons_self
          · exact hstack e (List.mem_cons_of_mem right (List.mem_cons_of_mem left he))
  | call name position count =>
      obtain ⟨function, hfunction⟩ := hi
      have hname : function.name = name := Registry.key_of_get? hfunction
      by_cases hcount : stack.length < count
      · rw [buildStep, if_pos hcount]
        exact .reported rfl
      · rw [buildStep, if_neg hcount]
        simp only [Registry.require, hfunction, bind, Except.bind, pure, Except.pure]
        refine .ok fun e he => ?_
        rcases List.mem_cons.1 he with rfl | he
        · refine ⟨by rw [hname]; exact hfunction, overAll_of_forall fun e he => hstack e ?_⟩
          exact List.mem_of_mem_take (List.mem_reverse.1 he)
        · exact hstack e (List.mem_of_mem_drop he)

theorem Expr.build_answers {instructions : List Instruction}
    (hknown : ∀ i ∈ instructions, i.Known t) :
    ∀ {stack : List Expr}, (∀ e ∈ stack, e.Over t) →
      Answers (· = .build) (fun stack' => ∀ e ∈ stack', e.Over t)
        (build t source stack instructions) := by
  induction instructions with
  | nil =>
      intro stack hstack
      exact .ok hstack
  | cons i more ih =>
      intro stack hstack
      have hstep : Answers (· = .build) (fun stack' => ∀ e ∈ stack', e.Over t)
          (buildStep t source stack i) :=
        buildStep_answers hstack (hknown i List.mem_cons_self)
      exact hstep.bind fun stack' hstack' =>
        ih (fun j hj => hknown j (List.mem_cons_of_mem i hj)) hstack'

/-- One tree is left, or that is reported. -/
theorem Tree.ofStack_answers {stack : List Expr} (hstack : ∀ e ∈ stack, e.Over t) :
    Answers (· = .build) (fun tree => tree.source = source ∧ tree.child.Over t)
      (Tree.ofStack? source stack) := by
  unfold ofStack?
  split
  · exact .reported rfl
  · next child hchild =>
      refine .ok ⟨rfl, hstack child ?_⟩
      rw [← List.mem_reverse, hchild]
      exact List.mem_singleton_self child
  · exact .reported rfl

theorem Limits.check_answers (name : String) (limit actual : Int) :
    Answers (· = .limitExceeded) (fun _ => True) (Limits.check name limit actual) := by
  unfold check
  split
  · exact .reported rfl
  · exact .ok trivial

-- ================================================================= parsing

/-- Known instructions have a tree over the table, or that is reported. -/
theorem Tree.ofInstructions_answers {instructions : List Instruction}
    (h : ∀ i ∈ instructions, i.Known t) :
    Answers (fun kind => kind = .limitExceeded ∨ kind = .build)
      (fun tree => tree.source = source ∧ tree.child.Over t)
      (Tree.ofInstructions? t limits source instructions) := by
  have hlimit : ∀ name actual limit,
      Answers (fun kind => kind = .limitExceeded ∨ kind = .build) (fun _ => True)
        (Limits.check name limit actual) := fun name actual limit =>
    (Limits.check_answers name limit actual).weaken (fun _ => Or.inl) fun _ h => h
  have hbuild : Answers (fun kind => kind = .limitExceeded ∨ kind = .build)
      (fun stack => ∀ e ∈ stack, Expr.Over t e) (Expr.build t source [] instructions) :=
    (Expr.build_answers h (by simp)).weaken (fun _ => Or.inr) fun _ h => h
  refine hbuild.bind fun stack hstack => ?_
  have htree : Answers (fun kind => kind = .limitExceeded ∨ kind = .build)
      (fun tree => tree.source = source ∧ tree.child.Over t) (Tree.ofStack? source stack) :=
    (Tree.ofStack_answers hstack).weaken (fun _ => Or.inr) fun _ h => h
  refine htree.bind fun tree hover => ?_
  refine (hlimit _ _ _).bind fun _ _ => ?_
  exact (hlimit _ _ _).bind fun _ _ => .ok hover

/-- Registered segments have a tree over the table, or that is reported. -/
theorem Tree.ofSegments_answers {segments : List Segment} (h : ∀ x ∈ segments, x.Registered t) :
    Answers ErrorKind.OfParsing (fun tree => tree.source = source ∧ tree.child.Over t)
      (Tree.ofSegments? t limits source segments) := by
  have hinstructions : Answers ErrorKind.OfParsing (fun instructions => ∀ i ∈ instructions,
      Instruction.Known t i) (Instruction.ofSegments? ⟨t.operators, limits, source⟩ segments) := by
    refine (Instruction.ofSegments_answers h).weaken ?_ fun _ h => h
    rintro kind (rfl | rfl)
    · exact Or.inl rfl
    · exact Or.inr (Or.inl rfl)
  refine hinstructions.bind fun instructions hknown => ?_
  refine (Tree.ofInstructions_answers hknown).weaken ?_ fun _ h => h
  rintro kind (rfl | rfl)
  · exact Or.inl rfl
  · exact Or.inr (Or.inr rfl)

/-- Parsing by a readable table answers a tree over it, or reports why
not. -/
theorem Tree.ofSource_answers (ht : t.Readable) (units : UnitRegistry) :
    Answers ErrorKind.OfParsing (fun tree => tree.source = source ∧ tree.child.Over t)
      (Tree.ofSource? t units limits source) := by
  have hsegments : Answers ErrorKind.OfParsing (fun segments => ∀ x ∈ segments,
      Segment.Registered t x) (Segment.ofSource? (.of t units) limits source) :=
    (Segment.ofSource_answers ht units limits source).weaken (fun _ => Or.inl) fun _ h => h
  exact hsegments.bind fun segments h => Tree.ofSegments_answers h

end UnitCalc
