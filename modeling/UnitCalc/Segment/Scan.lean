/-
Cutting a source into segments.

A `Scan` stands at a position of the source with the literal it is collecting
and the calls it is inside of. At every character one of three moves is taken:
the character is kept for the literal, skipped, or a segment is emitted. Which
one depends on the symbols, on the call whose argument is being read, and on a
few characters around.

Every move goes forward (`rest_apply_lt`), so `run` reaches the end of the
source. Argument validators see unfinished arguments; a fault of theirs ends
the scan.

# Asking and moving

What is done about a character (`Lexicon.move`) is decided before anything is
changed (`Scan.apply`). The questions come in a fixed order: whether the
character structures the source, whether the argument being read takes it,
whether a word stands here, whether it is an operator, and whether it is a
gap. Statements about a scan are therefore made in two parts, which move is
taken where and what a move does to a property, and put together for whole
runs by `Scan.run_preserves` in `Proofs/Scan/Moves`.
-/
import UnitCalc.Segment.Basic
import UnitCalc.Symbol.Table
import UnitCalc.Text.Letter

namespace UnitCalc

open Text

-- ======================================================== the state

/-- A call whose arguments are being read. -/
structure Frame where
  function : FunctionSymbol
  /-- Parentheses open since the call began, its own included. -/
  depth : Nat := 0
  /-- Commas between the arguments so far. -/
  commas : Nat := 0

/-- A source that is scanned up to a position. -/
structure Scan where
  position : Nat := 0
  /-- The character before the position. -/
  preceding : Option Char := none
  rest : List Char
  /-- The literal being collected, blanks included. -/
  buffer : List Char := []
  bufferStart : Nat := 0
  segments : List Segment := []
  /-- The calls around the position, the innermost first. -/
  frames : List Frame := []

/-- What a scan goes by. -/
structure Lexicon where
  symbols : SymbolTable
  units : UnitRegistry
  words : List String

/-- The lexicon of a symbol table and a unit registry. -/
def Lexicon.of (symbols : SymbolTable) (units : UnitRegistry) : Lexicon :=
  ⟨symbols, units, symbols.words⟩

/-- What is done about a character. -/
inductive Move where
  | keep
  | skip
  | emit (kind : SegmentKind) (text : String)
  deriving DecidableEq, Repr

-- ============================================================ words

/-- Whether a character may come right after a word. -/
def endsWord (next : Option Char) : Bool :=
  next.any fun c => c == '(' || isGap c

/-- Whether a word stands at the start of a text, after a given character. A
word must end before a parenthesis or a gap, and one that begins like a name
must not continue another word; of a word without characters the beginning
cannot be told. -/
def wordStands (preceding : Option Char) (rest : List Char) (word : String) :
    Except Fault Bool :=
  let letters := word.toList
  if letters.isPrefixOf rest && endsWord (rest.drop letters.length).head? then
    match letters with
    | [] => .error .emptyWord
    | first :: _ => .ok !(isWordStart first && preceding.any isWordPart)
  else .ok false

/-- The first of some words that stands at the start of a text. -/
def wordAt? (preceding : Option Char) (rest : List Char) :
    List String → Except Fault (Option String)
  | [] => .ok none
  | word :: words => do
    if ← wordStands preceding rest word then return some word
    wordAt? preceding rest words

-- ======================================================== arguments

/-- Whether an unfinished argument may go on like this: the parameters it
may belong to are tried in turn, up to the first required one. -/
def acceptedBy (symbols : SymbolTable) (tentative : Value) : List Parameter → Except Fault Bool
  | [] => .ok false
  | parameter :: more => do
    let accepted ← match symbols.validators.get? parameter.type with
      | some validator => validator.accepts tentative
      | none => pure false
    if accepted then return true
    if parameter.isRequired then return false
    acceptedBy symbols tentative more

namespace Scan

/-- The call whose arguments are being read. -/
def argumentFrame? (s : Scan) : Option Frame :=
  s.frames.head?.filter fun frame => 1 ≤ frame.depth

/-- Whether the argument being read takes another character. -/
def argumentTakes (s : Scan) (symbols : SymbolTable) (c : Char) : Except Fault Bool :=
  match s.argumentFrame? with
  | none => .ok false
  | some frame =>
    acceptedBy symbols (.text (String.ofList (s.buffer ++ [c])))
      (frame.function.parameters.drop frame.commas)

-- ======================================== operators inside of literals

/-- Whether a number starts at a text: a digit, perhaps after a point. -/
def startsNumber : List Char → Bool
  | '.' :: c :: _ => isAsciiDigit c
  | c :: _ => isAsciiDigit c
  | [] => false

/-- Whether an operand is due after a segment. -/
def operandDue (last : Option Segment) : Bool :=
  last.all fun segment =>
    segment.kind == .operator || segment.kind == .leftParen || segment.kind == .comma

/-- Whether an operator is the sign of a number, as in `-2` or `(+.5`. -/
def isSign (s : Scan) (operator : OperatorSymbol) (tail : List Char) : Bool :=
  operator.unary && allBlank s.buffer && operandDue s.segments.getLast? && startsNumber tail

/-- Whether a character is the sign of an exponent, as in `2e-3`. -/
def isExponentSign (s : Scan) (c : Char) (tail : List Char) : Bool :=
  let mantissa := trimStart s.buffer
  (c == '+' || c == '-') && 2 ≤ mantissa.length &&
    mantissa.getLast?.any (fun mark => mark == 'e' || mark == 'E') &&
    Quantity.isNumberText mantissa.dropLast && tail.head?.any isAsciiDigit

/-- Whether a character is a unit right behind a number, as in `50%`. -/
def isUnitSuffix (s : Scan) (units : UnitRegistry) (c : Char) (tail : List Char) : Bool :=
  units.isUnit (String.singleton c) && s.buffer.getLast?.any (fun last => !isGap last) &&
    Quantity.isNumberText s.buffer &&
    tail.head?.all fun next => isGap next || next == ')' || next == ','

end Scan

-- ======================================================== the moves

/-- The kind of a character that structures a source. -/
def structural? : Char → Option SegmentKind
  | '(' => some .leftParen
  | ')' => some .rightParen
  | ',' => some .comma
  | _ => none

/-- What a scan does about the character it stands at. -/
def Lexicon.move (lexicon : Lexicon) (s : Scan) (c : Char) (tail : List Char) :
    Except Fault Move :=
  match structural? c with
  | some kind => .ok (.emit kind (String.singleton c))
  | none => do
    if ← s.argumentTakes lexicon.symbols c then return .keep
    match ← wordAt? s.preceding (c :: tail) lexicon.words with
    | some word =>
      let kind := if lexicon.symbols.functions.contains word then .function else .operator
      return .emit kind word
    | none =>
      match lexicon.symbols.operatorOf? c with
      | some operator =>
        if s.isSign operator tail || s.isExponentSign c tail ||
            s.isUnitSuffix lexicon.units c tail then
          return .keep
        return .emit .operator (String.singleton c)
      | none => return if isGap c then .skip else .keep

namespace Scan

/-- Ends the literal being collected; blanks around it are dropped, and so
is a literal of blanks. -/
def flush (s : Scan) : Scan :=
  let text := trim s.buffer
  let start := s.bufferStart + (s.buffer.length - (trimStart s.buffer).length)
  { s with
    segments :=
      if text.isEmpty then s.segments
      else s.segments ++ [⟨.literal, String.ofList text, start⟩]
    buffer := [] }

/-- The calls around the position after a segment. A function opens a call,
which counts the parentheses and commas that follow; a call that never got
its parenthesis cannot be closed and is left behind. -/
def framesAfter (symbols : SymbolTable) (kind : SegmentKind) (text : String)
    (frames : List Frame) : List Frame :=
  match kind with
  | .function =>
    match symbols.functions.get? text with
    | some function => { function } :: frames
    | none => frames
  | .leftParen =>
    match frames with
    | frame :: outer => { frame with depth := frame.depth + 1 } :: outer
    | [] => []
  | .comma =>
    match frames with
    | frame :: outer =>
      if frame.depth = 1 then { frame with commas := frame.commas + 1 } :: outer
      else frame :: outer
    | [] => []
  | .rightParen =>
    match frames.dropWhile fun frame => frame.depth = 0 with
    | frame :: outer =>
      if frame.depth = 1 then outer else { frame with depth := frame.depth - 1 } :: outer
    | [] => []
  | _ => frames

/-- Takes a move at a character. -/
def apply (s : Scan) (symbols : SymbolTable) (c : Char) (tail : List Char) : Move → Scan
  | .keep =>
    { s with
      position := s.position + 1
      preceding := some c
      rest := tail
      buffer := s.buffer ++ [c]
      bufferStart := if s.buffer.isEmpty then s.position else s.bufferStart }
  | .skip => { s.flush with position := s.position + 1, preceding := some c, rest := tail }
  | .emit kind text =>
    let flushed := s.flush
    { flushed with
      position := s.position + text.length
      preceding := text.toList.getLast?
      rest := tail.drop (text.length - 1)
      segments := flushed.segments ++ [⟨kind, text, s.position⟩]
      frames := framesAfter symbols kind text s.frames }

/-- Every move leaves less of the source. -/
theorem rest_apply_lt (s : Scan) (symbols : SymbolTable) (c : Char) (tail : List Char)
    (move : Move) : (s.apply symbols c tail move).rest.length < (c :: tail).length := by
  cases move with
  | keep => simp [apply]
  | skip => simp [apply]
  | emit kind text =>
    simp only [apply, List.length_drop, List.length_cons]
    omega

/-- Scans to the end of the source. -/
def run (lexicon : Lexicon) (s : Scan) : Except Fault Scan :=
  match _h : s.rest with
  | [] => .ok s
  | c :: tail =>
    match lexicon.move s c tail with
    | .error fault => .error fault
    | .ok move => run lexicon (s.apply lexicon.symbols c tail move)
termination_by s.rest.length
decreasing_by
  rw [‹s.rest = c :: tail›]
  exact rest_apply_lt s lexicon.symbols c tail move

end Scan

/-- Cuts a source into segments. -/
def Segment.ofSource? (lexicon : Lexicon) (limits : Limits) (source : String) :
    Except Fault (List Segment) := do
  limits.checkLength source.length
  let scanned ← Scan.run lexicon { rest := source.toList }
  return scanned.flush.segments

end UnitCalc
