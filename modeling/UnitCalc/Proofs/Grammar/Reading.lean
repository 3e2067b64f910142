/-
Which tree a sentence stands for, said without any stack.

`Reads t s e top` derives the tree `e` from the segments `s` along the grammar
and keeps in `top` the operator at the root as long as no parentheses are around
it. Two ungrouped operators may stand one below the other only as precedence
and associativity allow: `AdmitsLeft` for the left operand, `AdmitsRight` for
the right one.

# Existence

Every sentence whose symbols are registered has a tree (`exists_reads`). An
operator that is added at the end goes down the right edge of the tree to the
first place that admits it (`Reads.insert`); either it becomes the root, or the
root stays and the same is asked of its right operand. That one of the two is
possible is a fact about the two relations alone: what does not admit another
on its left is admitted by it on the right (`yieldsTo_iff`,
`yieldsTo_eq_false_iff`).

# From left to right

The tree, read from left to right, is the sentence less its grouping parentheses
(`Reads.marks_eq`). It is proved with any segments behind the sentence, since
the operands of an operator are read with the rest behind them.

# Uniqueness

That there is no second tree is not shown here. It is seen from the reduction,
which arrives at any tree that a sentence reads as (`Proofs/Parsing/Complete`).
-/
import UnitCalc.Proofs.Grammar.Sentence
import UnitCalc.Expr.Basic

namespace UnitCalc

-- ====================================================== neighbouring operators

namespace OperatorSymbol

/-- Whether an operator may have another as its left operand's root, without
parentheses around it. -/
def AdmitsLeft (o left : OperatorSymbol) : Prop :=
  o.precedence < left.precedence
    ∨ left.precedence = o.precedence ∧ o.associativity = .left

/-- Whether an operator may have another as its right operand's root,
without parentheses around it. -/
def AdmitsRight (o right : OperatorSymbol) : Prop :=
  o.precedence < right.precedence
    ∨ right.precedence = o.precedence ∧ right.associativity = .right

/-- A waiting operator is applied first exactly when it may be the left
operand. -/
theorem yieldsTo_iff {o waiting : OperatorSymbol} :
    o.yieldsTo waiting = true ↔ o.AdmitsLeft waiting := by
  unfold yieldsTo AdmitsLeft isLeftAssociative
  simp

/-- A waiting operator keeps waiting exactly when it admits the next one as
its right operand. -/
theorem yieldsTo_eq_false_iff {o waiting : OperatorSymbol} :
    o.yieldsTo waiting = false ↔ waiting.AdmitsRight o := by
  unfold yieldsTo AdmitsRight isLeftAssociative
  cases h : o.associativity <;> simp <;> omega

/-- What stands left below an operator is admitted wherever the operator is
admitted on the right. -/
theorem AdmitsRight.trans_left {o right left : OperatorSymbol} (h : o.AdmitsRight right)
    (hleft : right.AdmitsLeft left) : o.AdmitsRight left := by
  unfold AdmitsRight AdmitsLeft at *
  rcases h with h | ⟨h, hright⟩ <;> rcases hleft with h' | ⟨h', hassoc⟩
  · left; omega
  · left; omega
  · left; omega
  · rw [hright] at hassoc
    cases hassoc

/-- What stands right below an operator is admitted wherever the operator is
admitted on the left. -/
theorem AdmitsLeft.trans_right {o left right : OperatorSymbol} (h : o.AdmitsLeft left)
    (hright : left.AdmitsRight right) : o.AdmitsLeft right := by
  unfold AdmitsRight AdmitsLeft at *
  rcases h with h | ⟨h, hassoc⟩ <;> rcases hright with h' | ⟨h', -⟩
  · left; omega
  · left; omega
  · left; omega
  · right
    exact ⟨by omega, hassoc⟩

end OperatorSymbol

-- ============================================================= the trees

variable {t : SymbolTable}

mutual

/-- A sentence read as a tree, whose root is `top` unless it is an operand. -/
inductive Reads (t : SymbolTable) : List Segment → Expr → Option OperatorSymbol → Prop
  | literal {x : Segment} (kind : x.kind = .literal) :
      Reads t [x] (.literal x.text x.position) none
  | group {s : List Segment} {o c : Segment} {e : Expr} {top : Option OperatorSymbol}
      (opens : o.kind = .leftParen) (inner : Reads t s e top) (closes : c.kind = .rightParen) :
      Reads t (o :: s ++ [c]) e none
  | emptyCall {f o c : Segment} {function : FunctionSymbol} (name : f.kind = .function)
      (known : t.functions.get? f.text = some function) (opens : o.kind = .leftParen)
      (closes : c.kind = .rightParen) : Reads t [f, o, c] (.call function [] f.position) none
  | call {a : List Segment} {f o c : Segment} {function : FunctionSymbol} {es : List Expr}
      (name : f.kind = .function) (known : t.functions.get? f.text = some function)
      (opens : o.kind = .leftParen) (arguments : ReadsAll t a es)
      (closes : c.kind = .rightParen) :
      Reads t (f :: o :: a ++ [c]) (.call function es f.position) none
  | binary {l r : List Segment} {x : Segment} {operator : OperatorSymbol} {left right : Expr}
      {leftTop rightTop : Option OperatorSymbol}
      (readLeft : Reads t l left leftTop) (kind : x.kind = .operator)
      (known : t.operators.get? x.text = some operator) (readRight : Reads t r right rightTop)
      (admitsLeft : ∀ o ∈ leftTop, operator.AdmitsLeft o)
      (admitsRight : ∀ o ∈ rightTop, operator.AdmitsRight o) :
      Reads t (l ++ x :: r) (.binary operator left right x.position) (some operator)

/-- Sentences with commas between them, each read as a tree. -/
inductive ReadsAll (t : SymbolTable) : List Segment → List Expr → Prop
  | one {s : List Segment} {e : Expr} {top : Option OperatorSymbol} (only : Reads t s e top) :
      ReadsAll t s [e]
  | more {s a : List Segment} {x : Segment} {e : Expr} {es : List Expr}
      {top : Option OperatorSymbol} (first : Reads t s e top) (kind : x.kind = .comma)
      (others : ReadsAll t a es) : ReadsAll t (s ++ x :: a) (e :: es)

end

/-- The tree that the grammar and the operators of a table prescribe for
some segments. -/
def Prescribed (t : SymbolTable) (segments : List Segment) (e : Expr) : Prop :=
  ∃ top, Reads t segments e top

-- ============================================================= existence

/-- An operator and an operand behind a sentence: the operator takes the
place of the first tree on the right edge that it admits as its left
operand. -/
theorem Reads.insert {l r : List Segment} {x : Segment} {operator : OperatorSymbol}
    {left right : Expr} {leftTop : Option OperatorSymbol} (hl : Reads t l left leftTop)
    (hx : x.kind = .operator) (hknown : t.operators.get? x.text = some operator)
    (hr : Reads t r right none) :
    ∃ e top, Reads t (l ++ x :: r) e top ∧ (top = some operator ∨ top = leftTop) := by
  -- An operand has no root to compare with, so only a binary root can be in the way.
  by_cases hadmits : ∀ o ∈ leftTop, operator.AdmitsLeft o
  · exact ⟨_, _, .binary hl hx hknown hr hadmits (by simp), Or.inl rfl⟩
  · cases hl with
    | literal _ => simp at hadmits
    | group _ _ _ => simp at hadmits
    | emptyCall _ _ _ _ => simp at hadmits
    | call _ _ _ _ _ => simp at hadmits
    | @binary ll lr y above a b aTop bTop ha hy hyKnown hb hleft hright =>
        -- The root stays, and the operator goes into its right operand.
        have habove : above.AdmitsRight operator := by
          rw [← OperatorSymbol.yieldsTo_eq_false_iff]
          simpa [← OperatorSymbol.yieldsTo_iff] using hadmits
        obtain ⟨e, top, he, htop⟩ := hb.insert hx hknown hr
        have hadmitted : ∀ o ∈ top, above.AdmitsRight o := by
          rcases htop with rfl | rfl
          · simpa using habove
          · exact hright
        refine ⟨.binary above a e y.position, some above, ?_, Or.inr rfl⟩
        rw [List.append_assoc, List.cons_append]
        exact .binary ha hy hyKnown he hleft hadmitted

mutual

/-- Every sentence of known symbols has a tree. -/
theorem Sentence.exists_reads {s : List Segment} (h : Sentence s) (hknows : t.Knows s) :
    ∃ e top, Reads t s e top := by
  match h with
  | .operand hs =>
      obtain ⟨e, he⟩ := hs.exists_reads hknows
      exact ⟨e, none, he⟩
  | .operator hl hx hr =>
      rw [SymbolTable.knows_append, SymbolTable.knows_cons] at hknows
      obtain ⟨hknowsLeft, hknowsOperator, hknowsRight⟩ := hknows
      obtain ⟨left, leftTop, hleft⟩ := hl.exists_reads hknowsLeft
      obtain ⟨right, hright⟩ := hr.exists_reads hknowsRight
      obtain ⟨operator, hoperator⟩ := Option.isSome_iff_exists.1 (hknowsOperator.1 hx)
      obtain ⟨e, top, he, -⟩ := hleft.insert hx hoperator hright
      exact ⟨e, top, he⟩

/-- Every operand of known symbols has a tree. -/
theorem Operand.exists_reads {s : List Segment} (h : Operand s) (hknows : t.Knows s) :
    ∃ e, Reads t s e none := by
  match h with
  | .literal hx => exact ⟨_, .literal hx⟩
  | .group ho hs hc =>
      rw [List.cons_append, SymbolTable.knows_cons, SymbolTable.knows_append] at hknows
      obtain ⟨e, top, he⟩ := hs.exists_reads hknows.2.1
      exact ⟨e, .group ho he hc⟩
  | .emptyCall hf ho hc =>
      rw [SymbolTable.knows_cons] at hknows
      obtain ⟨function, hfunction⟩ := Option.isSome_iff_exists.1 (hknows.1.2 hf)
      exact ⟨_, .emptyCall hf hfunction ho hc⟩
  | .call hf ho ha hc =>
      rw [List.cons_append, List.cons_append, SymbolTable.knows_cons, SymbolTable.knows_cons,
        SymbolTable.knows_append] at hknows
      obtain ⟨hknowsFunction, -, hknowsArguments, -⟩ := hknows
      obtain ⟨function, hfunction⟩ := Option.isSome_iff_exists.1 (hknowsFunction.2 hf)
      obtain ⟨es, hes⟩ := ha.exists_reads hknowsArguments
      exact ⟨_, .call hf hfunction ho hes hc⟩

/-- All arguments of known symbols have trees. -/
theorem Arguments.exists_reads {s : List Segment} (h : Arguments s) (hknows : t.Knows s) :
    ∃ es, ReadsAll t s es := by
  match h with
  | .one hs =>
      obtain ⟨e, top, he⟩ := hs.exists_reads hknows
      exact ⟨_, .one he⟩
  | .more hs hx ha =>
      rw [SymbolTable.knows_append, SymbolTable.knows_cons] at hknows
      obtain ⟨e, top, he⟩ := hs.exists_reads hknows.1
      obtain ⟨es, hes⟩ := ha.exists_reads hknows.2.2
      exact ⟨_, .more he hx hes⟩

end

-- ======================================================= from left to right

/-- What of a segment can be told from a tree. -/
inductive Mark where
  | literal (text : String) (position : Nat)
  | operator (symbol : String) (position : Nat)
  | function (name : String) (position : Nat)
  | leftParen
  | rightParen
  | comma
  deriving DecidableEq, Repr

/-- The mark of a segment. -/
def Segment.mark (x : Segment) : Mark :=
  match x.kind with
  | .literal => .literal x.text x.position
  | .operator => .operator x.text x.position
  | .function => .function x.text x.position
  | .leftParen => .leftParen
  | .rightParen => .rightParen
  | .comma => .comma

/-- Segments without the parentheses that are no call's. `opened` tells of
each open parenthesis, the innermost first, whether it is a call's. -/
def withoutGroups (opened : List Bool) (behindFunction : Bool) : List Segment → List Segment
  | [] => []
  | x :: more =>
    match x.kind with
    | .leftParen =>
      if behindFunction then x :: withoutGroups (true :: opened) false more
      else withoutGroups (false :: opened) false more
    | .rightParen =>
      if opened.head? = some true then x :: withoutGroups opened.tail false more
      else withoutGroups opened.tail false more
    | .function => x :: withoutGroups opened true more
    | _ => x :: withoutGroups opened false more

namespace Expr

mutual

/-- The marks of an expression from left to right, with no parentheses but
those of calls. -/
def marks : Expr → List Mark
  | literal text position => [.literal text position]
  | binary operator left right position =>
    marks left ++ .operator operator.symbol position :: marks right
  | call function arguments position =>
    .function function.name position :: .leftParen :: marksAll arguments ++ [.rightParen]

/-- The marks of the arguments of a call, with commas between them. -/
def marksAll : List Expr → List Mark
  | [] => []
  | [e] => marks e
  | e :: es => marks e ++ .comma :: marksAll es

end

end Expr

mutual

/-- Read from left to right, a tree is its sentence without grouping
parentheses; what follows the sentence is not touched. -/
theorem Reads.marks_append {s : List Segment} {e : Expr} {top : Option OperatorSymbol}
    (h : Reads t s e top) (opened : List Bool) (more : List Segment) :
    (withoutGroups opened false (s ++ more)).map Segment.mark
      = e.marks ++ (withoutGroups opened false more).map Segment.mark := by
  match h with
  | .literal hx =>
      simp [withoutGroups, hx, Segment.mark, Expr.marks]
  | .group (s := s) (c := c) ho hs hc =>
      -- Within a group its parenthesis is open, so the closing one is dropped with it.
      have hinner := hs.marks_append (false :: opened) (c :: more)
      rw [List.cons_append, List.cons_append, List.append_assoc, List.singleton_append,
        withoutGroups, ho]
      simp only [Bool.false_eq_true, ↓reduceIte, hinner, withoutGroups, hc, List.head?_cons,
        List.tail_cons, Option.some.injEq]
  | .emptyCall (f := f) hf hknown ho hc =>
      have hname := Registry.key_of_get? hknown
      simp [withoutGroups, hf, ho, hc, Segment.mark, Expr.marks, Expr.marksAll, ← hname,
        Keyed.key]
  | .call (a := a) (f := f) (c := c) hf hknown ho ha hc =>
      have hname := Registry.key_of_get? hknown
      have hinner := ha.marks_append (true :: opened) (c :: more)
      rw [List.append_assoc, List.cons_append, List.cons_append, List.singleton_append]
      simp only [withoutGroups, hf, ho, ↓reduceIte, List.map_cons, hinner, hc, List.head?_cons,
        List.tail_cons, Segment.mark, Expr.marks, ← hname, Keyed.key, List.cons_append,
        List.append_assoc, List.nil_append]
  | .binary (l := l) (r := r) (x := x) hl hx hknown hr _ _ =>
      have hname := Registry.key_of_get? hknown
      have hleft := hl.marks_append opened (x :: (r ++ more))
      have hright := hr.marks_append opened more
      rw [List.append_assoc, List.cons_append, hleft, withoutGroups, hx]
      simp only [List.map_cons, hright, Segment.mark, hx, Expr.marks, ← hname, Keyed.key,
        List.cons_append, List.append_assoc]

/-- The arguments of a call, read from left to right. -/
theorem ReadsAll.marks_append {s : List Segment} {es : List Expr} (h : ReadsAll t s es)
    (opened : List Bool) (more : List Segment) :
    (withoutGroups opened false (s ++ more)).map Segment.mark
      = Expr.marksAll es ++ (withoutGroups opened false more).map Segment.mark := by
  match h with
  | .one hs => exact hs.marks_append opened more
  | .more (a := a) (x := x) hs hx ha =>
      have hfirst := hs.marks_append opened (x :: (a ++ more))
      have hothers := ha.marks_append opened more
      rw [List.append_assoc, List.cons_append, hfirst, withoutGroups, hx]
      simp only [List.map_cons, hothers, Segment.mark, hx]
      -- There is a comma in front of further arguments, of which there is at least one.
      cases ha <;> simp only [Expr.marksAll, List.cons_append, List.append_assoc]

end

/-- The marks of a tree are those of its sentence without grouping
parentheses. -/
theorem Reads.marks_eq {s : List Segment} {e : Expr} {top : Option OperatorSymbol}
    (h : Reads t s e top) : (withoutGroups [] false s).map Segment.mark = e.marks := by
  have happend := h.marks_append [] []
  simpa [withoutGroups] using happend

end UnitCalc
