/-
Segments: the pieces a source is cut into, each with its text and the
position of its first character. Parentheses and commas structure a source,
functions and operators are found in the symbol table, and everything
between them is literal.

A segment keeps the position it was cut at through all later stages, where
instructions and nodes are made from it one for one. So what is reported
about any of these is reported at a place in the source
(`Proofs/Parsing/Places`).
-/
namespace UnitCalc

/-- What a segment is. -/
inductive SegmentKind where
  | literal
  | operator
  | function
  | leftParen
  | rightParen
  | comma
  deriving DecidableEq, Repr

/-- A piece of a source. -/
structure Segment where
  kind : SegmentKind
  text : String
  position : Nat
  deriving DecidableEq, Repr

namespace SegmentKind

/-- The name a kind is listed under. -/
def label : SegmentKind → String
  | literal => "LITERAL"
  | operator => "OPERATOR"
  | function => "FUNCTION"
  | leftParen => "LPAREN"
  | rightParen => "RPAREN"
  | comma => "COMMA"

/-- Every kind. -/
def all : List SegmentKind :=
  [literal, operator, function, leftParen, rightParen, comma]

/-- The kind of a name. -/
def ofLabel? (name : String) : Option SegmentKind :=
  all.find? fun kind => kind.label == name

end SegmentKind

end UnitCalc
