/-
Parsing is complete for infix sentences.

A sentence whose symbols are registered has exactly one tree that the grammar
and the operators prescribe, and within the limits that tree is what parsing
returns (`ofSegments_sentence`).

# One tree

The tree exists by the grammar alone (`Sentence.exists_reads`). That there is
one only is seen from the parser: with a limit on arguments that both trees
respect, the reduction gives the listing of either (`Reads.ofSegments`), and a
listing belongs to one tree (`Expr.postorder_injective`). So two derivations
are never compared with one another, which would have to go by both at once.

# The limits

Of them the reduction looks at the arguments of calls, and the builder at the
number of nodes and at the depth, when the tree is there. `Tree.Within` is all
three; the length of the source has been looked at before.

`Proofs/Parsing/Printing` reads printed expressions with this.
-/
import UnitCalc.Parsing
import UnitCalc.Proofs.Expr.Rebuild
import UnitCalc.Proofs.Reduction.Simulation

namespace UnitCalc

variable {t : SymbolTable} {limits : Limits} {source : String}

-- ================================================================ the limits

/-- Whether a tree respects the limits on trees and on calls. -/
def Tree.Within (limits : Limits) (tree : Tree) : Prop :=
  (tree.count : Int) ≤ limits.nodes ∧ (tree.depth : Int) ≤ limits.depth
    ∧ tree.child.CallsWithin limits.arguments

/-- What does not exceed a limit passes its check. -/
theorem Limits.check_ok {name : String} {limit actual : Int} (h : actual ≤ limit) :
    Limits.check name limit actual = .ok () := by
  unfold Limits.check
  rw [if_neg (by omega)]

/-- The calls of a list of expressions have a greatest number of
arguments. -/
theorem Expr.exists_callBound (listing : List Expr) :
    ∃ bound : Nat, ∀ function arguments position,
      call function arguments position ∈ listing → arguments.length ≤ bound := by
  induction listing with
  | nil => exact ⟨0, by simp⟩
  | cons e listing ih =>
      obtain ⟨bound, hbound⟩ := ih
      -- A sum is bound enough, and needs no case of which is the greater.
      refine ⟨bound + e.children.length, ?_⟩
      intro function arguments position hmem
      rcases List.mem_cons.1 hmem with rfl | hmem
      · simp only [children]
        omega
      · have hle := hbound function arguments position hmem
        omega

-- ============================================================ from the tree

mutual

/-- A tree that is read has the operators and functions of its table. -/
theorem Reads.over {s : List Segment} {e : Expr} {top : Option OperatorSymbol}
    (h : Reads t s e top) : e.Over t := by
  match h with
  | .literal _ => trivial
  | .group _ hs _ => exact hs.over
  | .emptyCall _ hknown _ _ =>
      refine ⟨?_, trivial⟩
      -- The table has it under the name in the segment, which is its own.
      rw [← Registry.key_of_get? hknown] at hknown
      exact hknown
  | .call _ hknown _ ha _ =>
      refine ⟨?_, ha.over⟩
      rw [← Registry.key_of_get? hknown] at hknown
      exact hknown
  | .binary hl _ hknown hr _ _ =>
      refine ⟨?_, hl.over, hr.over⟩
      rw [← Registry.key_of_get? hknown] at hknown
      exact hknown

theorem ReadsAll.over {s : List Segment} {es : List Expr} (h : ReadsAll t s es) :
    Expr.OverAll t es := by
  match h with
  | .one hs => exact ⟨hs.over, trivial⟩
  | .more hs _ ha => exact ⟨hs.over, ha.over⟩

end

/-- A tree that is prescribed for some segments and respects the limits is
what they are parsed to. -/
theorem Prescribed.ofSegments {segments : List Segment} {e : Expr}
    (h : Prescribed t segments e) (hwithin : Tree.Within limits ⟨source, e⟩) :
    Tree.ofSegments? t limits source segments = .ok ⟨source, e⟩ := by
  obtain ⟨top, hreads⟩ := h
  obtain ⟨hnodes, hdepth, hcalls⟩ := hwithin
  have hinstructions : Instruction.ofSegments? (t.grammar limits source) segments
      = .ok e.postorder := hreads.ofSegments hcalls
  have hbuilt : Expr.build t source [] e.postorder = .ok [e] :=
    Expr.build_postorder_eq hreads.over
  have hnodesOk : limits.checkNodes (Tree.mk source e).count = .ok () := Limits.check_ok hnodes
  have hdepthOk : limits.checkDepth (Tree.mk source e).depth = .ok () := Limits.check_ok hdepth
  unfold Tree.ofSegments? Tree.ofInstructions?
  simp only [hinstructions, hbuilt, Tree.ofStack?, List.reverse_singleton, hnodesOk, hdepthOk,
    bind, Except.bind, pure, Except.pure]

/-- No two trees are prescribed for the same segments. -/
theorem Prescribed.unique {segments : List Segment} {e e' : Expr}
    (h : Prescribed t segments e) (h' : Prescribed t segments e') : e = e' := by
  obtain ⟨top, hreads⟩ := h
  obtain ⟨top', hreads'⟩ := h'
  -- A limit that neither tree exceeds.
  obtain ⟨bound, hbound⟩ := Expr.exists_callBound (e.preorder ++ e'.preorder)
  let limits : Limits := { arguments := bound }
  have hcalls : e.CallsWithin limits.arguments := by
    intro f a p hmem
    exact Int.ofNat_le.2 (hbound f a p (List.mem_append_left _ hmem))
  have hcalls' : e'.CallsWithin limits.arguments := by
    intro f a p hmem
    exact Int.ofNat_le.2 (hbound f a p (List.mem_append_right _ hmem))
  have hlisting : Instruction.ofSegments? (t.grammar limits "") segments = .ok e.postorder :=
    hreads.ofSegments hcalls
  have hlisting' : Instruction.ofSegments? (t.grammar limits "") segments = .ok e'.postorder :=
    hreads'.ofSegments hcalls'
  rw [hlisting'] at hlisting
  have hpostorder : e'.postorder = e.postorder := by simpa using hlisting
  exact (Expr.postorder_injective hreads'.over hreads.over hpostorder).symm

-- =========================================================== every sentence

/-- A sentence of registered symbols has exactly one tree that the grammar
and the operators prescribe. Read from left to right it is the sentence
without its grouping parentheses, and within the limits parsing returns
it. -/
theorem ofSegments_sentence (t : SymbolTable) (limits : Limits) (source : String)
    {segments : List Segment} (hsentence : Sentence segments) (hknows : t.Knows segments) :
    ∃ e, (∀ e', Prescribed t segments e' ↔ e' = e)
      ∧ e.marks = (withoutGroups [] false segments).map Segment.mark
      ∧ (Tree.Within limits ⟨source, e⟩ →
        Tree.ofSegments? t limits source segments = .ok ⟨source, e⟩) := by
  obtain ⟨e, top, hreads⟩ := hsentence.exists_reads hknows
  have hprescribed : Prescribed t segments e := ⟨top, hreads⟩
  refine ⟨e, ?_, hreads.marks_eq.symm, hprescribed.ofSegments⟩
  intro e'
  constructor
  · intro h
    exact h.unique hprescribed
  · rintro rfl
    exact hprescribed

/-- An operator that associates to the right. -/
def rightward : OperatorSymbol :=
  { symbol := "^", precedence := 3, formula := fun x _ => .ok x, associativity := .right }

/-- An operator of the same precedence that associates to the left. -/
def leftward : OperatorSymbol :=
  { symbol := "~", precedence := 3, formula := fun _ y => .ok y }

def least : FunctionSymbol :=
  { name := "min", implementation := Numeric.deterministic Numeric.min }

def mixedTable : SymbolTable where
  operators := Registry.ofList [rightward, leftward]
  functions := Registry.ofList [least]

/-- The segments of `2 ^ 3 ~ min((1), 4)`. -/
def mixedSegments : List Segment :=
  [⟨.literal, "2", 0⟩, ⟨.operator, "^", 2⟩, ⟨.literal, "3", 4⟩, ⟨.operator, "~", 6⟩,
   ⟨.function, "min", 8⟩, ⟨.leftParen, "(", 11⟩, ⟨.leftParen, "(", 12⟩, ⟨.literal, "1", 13⟩,
   ⟨.rightParen, ")", 14⟩, ⟨.comma, ",", 15⟩, ⟨.literal, "4", 17⟩, ⟨.rightParen, ")", 18⟩]

/-- The operator in front does not wait for the one behind it, although it
would for its own like: the tree is `(2 ^ 3) ~ min(1, 4)`. -/
theorem ofSegments_mixed :
    Sentence mixedSegments ∧ mixedTable.Knows mixedSegments
      ∧ Tree.ofSegments? mixedTable .standard "2 ^ 3 ~ min((1), 4)" mixedSegments
        = .ok ⟨"2 ^ 3 ~ min((1), 4)",
            .binary leftward (.binary rightward (.literal "2" 0) (.literal "3" 4) 2)
              (.call least [.literal "1" 13, .literal "4" 17] 8) 6⟩ := by
  have hsentence : Sentence mixedSegments := by
    have hgroup : Sentence [⟨.leftParen, "(", 12⟩, ⟨.literal, "1", 13⟩, ⟨.rightParen, ")", 14⟩] :=
      .operand (.group (s := [_]) rfl (.operand (.literal rfl)) rfl)
    have hcall : Operand (mixedSegments.drop 4) :=
      .call rfl rfl (.more hgroup rfl (.one (.operand (.literal rfl)))) rfl
    exact .operator (.operator (.operand (.literal rfl)) rfl (.literal rfl)) rfl hcall
  have hknows : mixedTable.Knows mixedSegments := by
    unfold SymbolTable.Knows SymbolTable.KnowsSegment
    decide +kernel
  obtain ⟨e, hunique, -, hparse⟩ :=
    ofSegments_sentence mixedTable .standard "2 ^ 3 ~ min((1), 4)" hsentence hknows
  have hreads : Reads mixedTable mixedSegments
      (.binary leftward (.binary rightward (.literal "2" 0) (.literal "3" 4) 2)
        (.call least [.literal "1" 13, .literal "4" 17] 8) 6) (some leftward) := by
    have hgroup : Reads mixedTable
        [⟨.leftParen, "(", 12⟩, ⟨.literal, "1", 13⟩, ⟨.rightParen, ")", 14⟩]
        (.literal "1" 13) none :=
      @Reads.group _ [_] _ _ _ _ rfl (.literal rfl) rfl
    have hcall : Reads mixedTable (mixedSegments.drop 4)
        (.call least [.literal "1" 13, .literal "4" 17] 8) none :=
      .call rfl rfl rfl (.more hgroup rfl (.one (.literal rfl))) rfl
    have hpower : Reads mixedTable (mixedSegments.take 3)
        (.binary rightward (.literal "2" 0) (.literal "3" 4) 2) (some rightward) :=
      .binary (.literal rfl) rfl rfl (.literal rfl) (by simp) (by simp)
    refine .binary hpower rfl rfl hcall ?_ (by simp)
    simp [OperatorSymbol.AdmitsLeft, leftward, rightward]
  obtain rfl := (hunique _).1 ⟨_, hreads⟩
  refine ⟨hsentence, hknows, hparse ⟨by decide, by decide, ?_⟩⟩
  rw [Expr.callsWithin_binary, Expr.callsWithin_binary, Expr.callsWithin_call]
  simp [Expr.CallsWithin, Expr.AllCallsWithin, Expr.preorder, Limits.standard]

end UnitCalc
