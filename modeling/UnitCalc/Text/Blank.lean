/-
White space in three widths.

A gap parts the words of a source, a spacing character may surround a written
number, and a blank is trimmed off literals and suffixes. Each class holds the
one before it (`isGap_isSpacing`, `isSpacing_isBlank`), so a trimmed text has
no gap at either end.

The classes differ where one would not look: the four information separators
are blank and no spacing, so a text can be accepted as a number with one at
its end and then not be read (`Proofs/Symbol/Reading`); and a line separator
is spacing and no gap, so it does not end a word.
-/
namespace UnitCalc.Text

-- ==================================================== the classes

/-- Space, tab, line feed and carriage return: what ends a word in a
source. -/
def isGap (c : Char) : Bool :=
  c == ' ' || c == '\t' || c == '\n' || c == '\r'

/-- The code points of the Unicode property `White_Space`. -/
def spacingPoints : List Nat :=
  [0x09, 0x0A, 0x0B, 0x0C, 0x0D, 0x20, 0x85, 0xA0, 0x1680,
    0x2000, 0x2001, 0x2002, 0x2003, 0x2004, 0x2005, 0x2006, 0x2007, 0x2008, 0x2009, 0x200A,
    0x2028, 0x2029, 0x202F, 0x205F, 0x3000]

/-- The four information separators: blank, though not of the property
`White_Space`. -/
def separatorPoints : List Nat :=
  [0x1C, 0x1D, 0x1E, 0x1F]

/-- Characters that may stand around a written number. -/
def isSpacing (c : Char) : Bool :=
  spacingPoints.contains c.toNat

/-- Characters that trimming removes. -/
def isBlank (c : Char) : Bool :=
  isSpacing c || separatorPoints.contains c.toNat

theorem isSpacing_isBlank {c : Char} (h : isSpacing c = true) : isBlank c = true := by
  simp [isBlank, h]

theorem isGap_isSpacing {c : Char} (h : isGap c = true) : isSpacing c = true := by
  simp only [isGap, Bool.or_eq_true, beq_iff_eq] at h
  rcases h with ((rfl | rfl) | rfl) | rfl <;> decide

-- ====================================================== trimming

/-- Drops the characters of a class from both ends. -/
def trimBy (p : Char → Bool) (cs : List Char) : List Char :=
  ((cs.dropWhile p).reverse.dropWhile p).reverse

/-- Where no character is of the class, none is dropped. -/
theorem trimBy_eq_self {p : Char → Bool} {cs : List Char} (h : ∀ c ∈ cs, p c = false) :
    trimBy p cs = cs := by
  have hdrop : ∀ ds : List Char, (∀ c ∈ ds, p c = false) → ds.dropWhile p = ds := by
    intro ds hds
    cases ds with
    | nil => rfl
    | cons d ds => rw [List.dropWhile_cons_of_neg (by simp [hds d List.mem_cons_self])]
  unfold trimBy
  rw [hdrop cs h, hdrop cs.reverse fun c hc => h c (List.mem_reverse.1 hc), List.reverse_reverse]

/-- Drops the blanks at the start. -/
def trimStart (cs : List Char) : List Char :=
  cs.dropWhile isBlank

/-- Drops the blanks at both ends. -/
def trim (cs : List Char) : List Char :=
  trimBy isBlank cs

/-- Whether every character is blank. -/
def allBlank (cs : List Char) : Bool :=
  cs.all isBlank

end UnitCalc.Text
