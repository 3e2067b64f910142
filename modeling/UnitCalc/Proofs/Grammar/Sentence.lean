/-
Infix sentences, said of segments and without the reduction.

An expression is operands with operators between them, an operand is a literal,
a group or a call, and a call has expressions with commas between them, or
nothing.

# The grammar

It grows at the right: an operator and an operand are added to a sentence, so
derivations are built in the order in which segments are read. Precedence and
associativity have no part in what is a sentence; they say which tree it stands
for (`Proofs/Grammar/Reading`).

# Neighbourhood

`InOrder` is the part of the grammar that can be told from neighbouring
segments alone, without matching parentheses: what may stand behind what. Of
the segments so far it keeps what is due, which is one of four things; behind
the parenthesis of a call an operand is due or the end of the call, everywhere
else it is either an operand, or what may follow one.

Every sentence is in order (`Sentence.inOrder`, by induction on the derivation,
with one of its three theorems for each part of the grammar). If parentheses
and commas nest, the converse holds as well (`Proofs/Grammar/Brackets`).
-/
import UnitCalc.Segment.Basic
import UnitCalc.Symbol.Table

namespace UnitCalc

-- =========================================================== the grammar

mutual

/-- Operands with operators between them. -/
inductive Sentence : List Segment → Prop
  | operand {s : List Segment} (operand : Operand s) : Sentence s
  | operator {l r : List Segment} {x : Segment} (left : Sentence l) (kind : x.kind = .operator)
      (right : Operand r) : Sentence (l ++ x :: r)

/-- A literal, a sentence in parentheses, or a call. -/
inductive Operand : List Segment → Prop
  | literal {x : Segment} (kind : x.kind = .literal) : Operand [x]
  | group {s : List Segment} {o c : Segment} (opens : o.kind = .leftParen) (inner : Sentence s)
      (closes : c.kind = .rightParen) : Operand (o :: s ++ [c])
  | emptyCall {f o c : Segment} (name : f.kind = .function) (opens : o.kind = .leftParen)
      (closes : c.kind = .rightParen) : Operand [f, o, c]
  | call {a : List Segment} {f o c : Segment} (name : f.kind = .function)
      (opens : o.kind = .leftParen) (arguments : Arguments a) (closes : c.kind = .rightParen) :
      Operand (f :: o :: a ++ [c])

/-- Sentences with commas between them, at least one. -/
inductive Arguments : List Segment → Prop
  | one {s : List Segment} (only : Sentence s) : Arguments s
  | more {s a : List Segment} {x : Segment} (first : Sentence s) (kind : x.kind = .comma)
      (others : Arguments a) : Arguments (s ++ x :: a)

end

/-- An argument may be added at the end as well. -/
theorem Arguments.snoc {a s : List Segment} {x : Segment} (ha : Arguments a)
    (hx : x.kind = .comma) (hs : Sentence s) : Arguments (a ++ x :: s) := by
  match ha with
  | .one only => exact .more only hx (.one hs)
  | .more (s := first) (a := others) (x := y) hfirst hy hothers =>
      have hall : Arguments (others ++ x :: s) := hothers.snoc hx hs
      rw [List.append_assoc, List.cons_append]
      exact .more hfirst hy hall

/-- Whether a segment is registered, if it must be. -/
def SymbolTable.KnowsSegment (t : SymbolTable) (x : Segment) : Prop :=
  (x.kind = .operator → (t.operators.get? x.text).isSome)
    ∧ (x.kind = .function → (t.functions.get? x.text).isSome)

/-- Whether every operator and every function among some segments is
registered. -/
def SymbolTable.Knows (t : SymbolTable) (segments : List Segment) : Prop :=
  ∀ x ∈ segments, t.KnowsSegment x

theorem SymbolTable.knows_cons {t : SymbolTable} {x : Segment} {s : List Segment} :
    t.Knows (x :: s) ↔ t.KnowsSegment x ∧ t.Knows s :=
  List.forall_mem_cons

theorem SymbolTable.knows_append {t : SymbolTable} {l r : List Segment} :
    t.Knows (l ++ r) ↔ t.Knows l ∧ t.Knows r :=
  List.forall_mem_append

-- ======================================================== neighbourhood

/-- What is due at a place between segments. -/
inductive Due where
  /-- An operand: at the start, behind an operator or a comma, in a group. -/
  | operand
  /-- The parenthesis of the function in front. -/
  | parenthesis
  /-- An operand or the end of the call whose parenthesis is in front. -/
  | argument
  /-- Whatever may stand behind an operand, or the end. -/
  | operator
  deriving DecidableEq, Repr

namespace Due

/-- What is due behind a segment of some kind, if it may stand here. -/
def behind : Due → SegmentKind → Option Due
  | operand, .literal | argument, .literal => some operator
  | operand, .leftParen | argument, .leftParen => some operand
  | operand, .function | argument, .function => some parenthesis
  | parenthesis, .leftParen => some argument
  | argument, .rightParen => some operator
  | operator, .operator | operator, .comma => some operand
  | operator, .rightParen => some operator
  | _, _ => none

/-- What is due behind some segments, if each may stand where it does. -/
def after : Due → List Segment → Option Due
  | due, [] => some due
  | due, x :: more => (due.behind x.kind).bind fun next => next.after more

theorem after_append (due : Due) (l r : List Segment) :
    due.after (l ++ r) = (due.after l).bind fun next => next.after r := by
  induction l generalizing due with
  | nil => rfl
  | cons x l ih =>
      simp only [List.cons_append, after]
      cases due.behind x.kind with
      | none => rfl
      | some next => exact ih next

end Due

/-- Whether each segment may stand behind the one before it, and the last
one at the end. -/
def InOrder (segments : List Segment) : Prop :=
  Due.operand.after segments = some .operator

/-- What is due at the end can be computed. -/
instance (segments : List Segment) : Decidable (InOrder segments) :=
  inferInstanceAs (Decidable (_ = _))

/-- The first argument of a call may begin like any other operand. -/
theorem InOrder.after_argument {s : List Segment} (h : InOrder s) :
    Due.argument.after s = some .operator := by
  unfold InOrder at h
  cases s with
  | nil => simp [Due.after] at h
  | cons x s =>
      simp only [Due.after] at h ⊢
      -- Only a closing parenthesis makes a difference, and no operand begins with one.
      cases hx : x.kind <;> simp_all [Due.behind]

mutual

/-- A sentence is in order. -/
theorem Sentence.inOrder {s : List Segment} (h : Sentence s) : InOrder s := by
  match h with
  | .operand hs => exact hs.inOrder
  | .operator (l := l) (r := r) (x := x) hl hx hr =>
      have hleft := hl.inOrder
      have hright := hr.inOrder
      unfold InOrder at hleft hright ⊢
      rw [Due.after_append, hleft, Option.bind_some, Due.after, hx]
      exact hright

/-- An operand is in order. -/
theorem Operand.inOrder {s : List Segment} (h : Operand s) : InOrder s := by
  match h with
  | .literal hx =>
      simp [InOrder, Due.after, Due.behind, hx]
  | .group (s := s) ho hs hc =>
      have hinner := hs.inOrder
      unfold InOrder at hinner ⊢
      rw [List.cons_append, Due.after, ho]
      simp only [Due.behind, Option.bind_some, Due.after_append, hinner, Due.after, hc]
  | .emptyCall hf ho hc =>
      simp [InOrder, Due.after, Due.behind, hf, ho, hc]
  | .call (a := a) hf ho ha hc =>
      -- Behind its parenthesis an argument is due, not just an operand, since the call may end
      -- there.
      have hinner := ha.inOrder.after_argument
      unfold InOrder
      rw [List.cons_append, List.cons_append, Due.after, hf]
      simp only [Due.behind, Option.bind_some, Due.after_append, hinner, Due.after, ho, hc]

/-- The arguments of a call are in order. -/
theorem Arguments.inOrder {s : List Segment} (h : Arguments s) : InOrder s := by
  match h with
  | .one hs => exact hs.inOrder
  | .more (s := s) (a := a) (x := x) hs hx ha =>
      have hfirst := hs.inOrder
      have hothers := ha.inOrder
      unfold InOrder at hfirst hothers ⊢
      rw [Due.after_append, hfirst, Option.bind_some, Due.after, hx]
      exact hothers

end

end UnitCalc
