/-
What is inside a pair of parentheses, taken apart.

Counting says that parentheses match; where every function has its parenthesis
behind it, the same lists are built up of single segments, groups and calls
(`Matched`), and that is what an induction goes by.

# From counting to building

A parenthesis that opens balanced segments has its partner at the first place
where more is closed than opened (`exists_first_close`). What is inside and what
is behind are shorter and balanced again, so the induction is on the length
(`Balanced.matched`).

# The own level

Of what is inside, only the segments that no further parentheses enclose are
the call's own (`level`). Its commas part the arguments (`arguments`), and an
operand of an argument that has no operator in front of it is leading
(`leading`). How many arguments are counted while reading is the number of
leading operands, not that of the arguments.

The leading operands are told argument by argument in the definition, and in the
proofs along the list, with one bit for whether an operator has come since the
last comma (`begins`, `begins_eq_sum`). Where all is in order each argument has
one leading operand (`leadingCount_of_inOrder`); elsewhere it may have any
number of them.

`Proofs/Reduction/Enclosed` follows the count through the reduction.
-/
import Mathlib.Algebra.Ring.Nat
import UnitCalc.Proofs.Grammar.Matching

namespace UnitCalc

-- ============================================================== built up

/-- Whether every function has its parenthesis right behind it. -/
def Called (segments : List Segment) : Prop :=
  ∀ before f after, segments = before ++ f :: after → f.kind = .function →
    after.head?.map Segment.kind = some .leftParen

/-- Segments with groups and calls among them, each with its partner. -/
inductive Matched : List Segment → Prop
  | nil : Matched []
  | plain {x : Segment} {s : List Segment}
      (kind : x.kind = .literal ∨ x.kind = .operator ∨ x.kind = .comma) (rest : Matched s) :
      Matched (x :: s)
  | group {o c : Segment} {inner s : List Segment} (opens : o.kind = .leftParen)
      (inside : Matched inner) (closes : c.kind = .rightParen) (rest : Matched s) :
      Matched (o :: (inner ++ c :: s))
  | call {f o c : Segment} {inner s : List Segment} (name : f.kind = .function)
      (opens : o.kind = .leftParen) (inside : Matched inner) (closes : c.kind = .rightParen)
      (rest : Matched s) : Matched (f :: o :: (inner ++ c :: s))

/-- Where more is closed than opened, something is the first to close more. -/
theorem exists_first_close {s : List Segment} (hmore : openings s < closings s) :
    ∃ inner c rest, s = inner ++ c :: rest ∧ c.kind = .rightParen ∧ Balanced inner := by
  induction hlength : s.length using Nat.strongRecOn generalizing s with
  | _ n ih =>
      by_cases hshorter : ∃ before after, s = before ++ after ∧ after ≠ []
          ∧ openings before < closings before
      · obtain ⟨before, after, rfl, hafter, hbefore⟩ := hshorter
        have hpositive := List.length_pos_iff.2 hafter
        rw [List.length_append] at hlength
        obtain ⟨inner, c, rest, rfl, hc, hinner⟩ := ih before.length (by omega) hbefore rfl
        exact ⟨inner, c, rest ++ after, by simp, hc, hinner⟩
      · -- No proper beginning closes more, so it is the last segment that does.
        have hturn : ∀ before after, s = before ++ after → after ≠ [] →
            closings before ≤ openings before := by
          intro before after hsplit hafter
          refine Nat.le_of_not_lt fun hlt => hshorter ?_
          exact ⟨before, after, hsplit, hafter, hlt⟩
        rcases List.eq_nil_or_concat s with rfl | ⟨inner, c, rfl⟩
        · simp at hmore
        · rw [List.concat_eq_append] at *
          have hinner := hturn inner [c] rfl (by simp)
          simp only [openings_append, closings_append, openings_cons, closings_cons, openings_nil,
            closings_nil] at hmore
          by_cases hc : c.kind = .rightParen
          · refine ⟨inner, c, [], rfl, hc, ?_, ?_⟩
            · intro before after hsplit
              exact hturn before (after ++ [c]) (by rw [hsplit, List.append_assoc]) (by simp)
            · simp only [hc, reduceCtorEq, ↓reduceIte] at hmore
              omega
          · rw [if_neg hc] at hmore
            omega

namespace Balanced

/-- A parenthesis that opens balanced segments has its partner among them. -/
theorem exists_partner {o : Segment} {s : List Segment} (h : Balanced (o :: s))
    (ho : o.kind = .leftParen) :
    ∃ inner c rest, s = inner ++ c :: rest ∧ c.kind = .rightParen ∧ Balanced inner
      ∧ Balanced rest := by
  have heven := h.even
  simp only [openings_cons, closings_cons, ho, reduceCtorEq, ↓reduceIte] at heven
  obtain ⟨inner, c, rest, rfl, hc, hinner⟩ := exists_first_close (s := s) (by omega)
  have hsame := hinner.even
  refine ⟨inner, c, rest, rfl, hc, hinner, ?_, ?_⟩
  · rintro before after rfl
    have hturn := h.inTurn (o :: (inner ++ c :: before)) after (by simp)
    simp only [openings_cons, closings_cons, openings_append, closings_append, ho, hc,
      reduceCtorEq, ↓reduceIte] at hturn
    omega
  · simp only [openings_cons, closings_cons, openings_append, closings_append, hc,
      reduceCtorEq, ↓reduceIte] at heven
    omega

/-- Behind a segment that is no parenthesis the rest is balanced. -/
theorem tail {x : Segment} {s : List Segment} (h : Balanced (x :: s))
    (hopen : x.kind ≠ .leftParen) (hclose : x.kind ≠ .rightParen) : Balanced s where
  inTurn := by
    rintro before after rfl
    have hturn := h.inTurn (x :: before) after rfl
    simpa [hopen, hclose] using hturn
  even := by
    have heven := h.even
    simpa [hopen, hclose] using heven

/-- Nothing balanced begins with a closing parenthesis. -/
theorem head_ne_rightParen {x : Segment} {s : List Segment} (h : Balanced (x :: s)) :
    x.kind ≠ .rightParen := by
  intro hx
  have hturn := h.inTurn [x] s rfl
  simp [hx] at hturn

end Balanced

namespace Called

variable {l r : List Segment}

theorem suffix (h : Called (l ++ r)) : Called r := by
  rintro before f after rfl hf
  exact h (l ++ before) f after (by simp) hf

/-- What a closing parenthesis follows has its calls for itself. -/
theorem inside {c : Segment} (h : Called (l ++ c :: r)) (hc : c.kind = .rightParen) :
    Called l := by
  rintro before f after rfl hf
  have hnext := h before f (after ++ c :: r) (by simp) hf
  cases after with
  | nil => simp [hc] at hnext
  | cons x after => simpa using hnext

end Called

/-- Balanced segments whose functions have their parentheses are built up. -/
theorem Balanced.matched {s : List Segment} (h : Balanced s) (hcalled : Called s) : Matched s := by
  induction hn : s.length using Nat.strongRecOn generalizing s with
  | _ n ih =>
      match s with
      | [] => exact .nil
      | x :: s =>
          rw [List.length_cons] at hn
          -- It begins with a group, with a call, or with a segment by itself; what is inside and
          -- what is behind are shorter.
          by_cases hopen : x.kind = .leftParen
          · obtain ⟨inner, c, rest, rfl, hc, hinner, hrest⟩ := h.exists_partner hopen
            rw [List.length_append, List.length_cons] at hn
            have hbehind : Called (inner ++ c :: rest) := Called.suffix (l := [x]) hcalled
            refine .group hopen (ih _ (by omega) hinner (hbehind.inside hc) rfl) hc ?_
            exact ih _ (by omega) hrest (Called.suffix (l := inner ++ [c]) (by simpa using hbehind))
              rfl
          · have hrest := h.tail hopen h.head_ne_rightParen
            have hbehind : Called s := Called.suffix (l := [x]) hcalled
            by_cases hx : x.kind = .function
            · obtain ⟨o, ho⟩ := Option.map_eq_some_iff.1 (hcalled [] x s rfl hx)
              obtain ⟨hhead, ho⟩ := ho
              obtain ⟨s', rfl⟩ := List.head?_eq_some_iff.1 hhead
              obtain ⟨inner, c, rest, rfl, hc, hinner, hrest⟩ := hrest.exists_partner ho
              simp only [List.length_cons, List.length_append] at hn
              have hwithin : Called (inner ++ c :: rest) := Called.suffix (l := [o]) hbehind
              refine .call hx ho (ih _ (by omega) hinner (hwithin.inside hc) rfl) hc ?_
              exact ih _ (by omega) hrest
                (Called.suffix (l := inner ++ [c]) (by simpa using hwithin)) rfl
            · refine .plain ?_ (ih _ (by omega) hrest hbehind rfl)
              have hclose := h.head_ne_rightParen
              cases hkind : x.kind <;> simp_all

/-- What is built up is balanced. -/
theorem Matched.balanced {s : List Segment} (h : Matched s) : Balanced s := by
  induction h with
  | nil => exact .nil
  | @plain x s hx _ ih =>
      refine Balanced.append (l := [x]) (.singleton ?_ ?_) ih <;>
        rcases hx with hx | hx | hx <;> simp [hx]
  | @group o c inner s ho _ hc _ ihinner ih =>
      have hall := (ihinner.wrap ho hc).append ih
      simpa using hall
  | @call f o c inner s hf ho _ hc _ ihinner ih =>
      have hname : Balanced [f] := .singleton (by simp [hf]) (by simp [hf])
      have hall := hname.append ((ihinner.wrap ho hc).append ih)
      simpa using hall

/-- Whether some segments have a call of a function among them, by what stands
in front of it and what its parentheses enclose. -/
inductive CallIn : List Segment → List Segment → Segment → List Segment → Prop
  | intro {before inner after : List Segment} {f o c : Segment} (name : f.kind = .function)
      (opens : o.kind = .leftParen) (inside : Balanced inner) (closes : c.kind = .rightParen) :
      CallIn (before ++ f :: o :: (inner ++ c :: after)) before f inner

/-- The function stands behind what stands in front of it. -/
theorem CallIn.getElem?_length {segments before inner : List Segment} {f : Segment}
    (h : CallIn segments before f inner) : segments[before.length]? = some f := by
  cases h with
  | intro _ _ _ _ => simp

/-- What a call encloses is built up. -/
theorem CallIn.matched {segments before inner : List Segment} {f : Segment}
    (h : CallIn segments before f inner) (hcalled : Called segments) : Matched inner := by
  cases h with
  | @intro _ _ after _ o c _ _ hinner hc =>
      have hsuffix : Called (inner ++ c :: after) :=
        Called.suffix (l := before ++ [f, o]) (by simpa using hcalled)
      exact hinner.matched (hsuffix.inside hc)

/-- No function stands in front of what is not its parenthesis. -/
theorem Called.lastKind_ne {before : List Segment} (rest : List Segment)
    (h : Called (before ++ rest))
    (hrest : rest.head?.map Segment.kind ≠ some .leftParen) :
    lastKind before ≠ some .function := by
  intro hlast
  obtain ⟨f, hf, hkind⟩ := Option.map_eq_some_iff.1 hlast
  obtain ⟨before', rfl⟩ := List.getLast?_eq_some_iff.1 hf
  exact hrest (h before' f rest (by simp) hkind)

/-- No function comes last. -/
theorem Matched.lastKind_ne {s : List Segment} (h : Matched s) :
    lastKind s ≠ some .function := by
  have hbehind : ∀ {l : List Segment} {x : Segment} {s : List Segment}, x.kind ≠ .function →
      lastKind s ≠ some .function → lastKind (l ++ x :: s) ≠ some .function := by
    intro l x s hx hs
    unfold lastKind at hs ⊢
    rw [List.getLast?_append, List.getLast?_cons, Option.some_or]
    cases hlast : s.getLast? with
    | none => simpa using hx
    | some y => simpa [hlast] using hs
  induction h with
  | nil => simp [lastKind]
  | plain hx _ ih => exact hbehind (l := []) (by rcases hx with hx | hx | hx <;> simp [hx]) ih
  | @group o c inner s _ _ hc _ _ ih => exact hbehind (l := o :: inner) (by simp [hc]) ih
  | @call f o c inner s _ _ _ hc _ _ ih => exact hbehind (l := f :: o :: inner) (by simp [hc]) ih

-- ============================================================ the own level

/-- The segments outside of all parentheses, where so many are open to begin
with. A group is there with its opening parenthesis, a call with its function
and that. -/
def level : Nat → List Segment → List Segment
  | _, [] => []
  | depth, x :: s =>
    match x.kind with
    | .leftParen => if depth = 0 then x :: level 1 s else level (depth + 1) s
    | .rightParen => level (depth - 1) s
    | _ => if depth = 0 then x :: level 0 s else level depth s

theorem level_plain {x : Segment} (s : List Segment) (hopen : x.kind ≠ .leftParen)
    (hclose : x.kind ≠ .rightParen) : level 0 (x :: s) = x :: level 0 s := by
  cases hx : x.kind <;> simp_all [level]

-- ================================================================ in turn

/-- Whether nothing is closed that was not opened, where so many parentheses
are open to begin with. -/
def InTurn (depth : Nat) (segments : List Segment) : Prop :=
  ∀ before after, segments = before ++ after → closings before ≤ depth + openings before

namespace InTurn

variable {depth : Nat} {l r s : List Segment} {x : Segment}

theorem nil (depth : Nat) : InTurn depth [] := by
  intro before after h
  obtain ⟨rfl, -⟩ := List.append_eq_nil_iff.1 h.symm
  exact Nat.zero_le _

theorem left (h : InTurn depth (l ++ r)) : InTurn depth l := by
  intro before after hsplit
  exact h before (after ++ r) (by rw [hsplit, List.append_assoc])

theorem whole (h : InTurn depth s) : closings s ≤ depth + openings s :=
  h s [] (List.append_nil s).symm

theorem concat (h : InTurn depth s)
    (hx : closings (s ++ [x]) ≤ depth + openings (s ++ [x])) : InTurn depth (s ++ [x]) := by
  intro before after hsplit
  rcases List.prefix_concat_iff.1 ⟨after, hsplit.symm⟩ with rfl | ⟨after', hearlier⟩
  · exact hx
  · exact h before after' hearlier.symm

theorem of_balanced (h : Balanced s) (depth : Nat) : InTurn depth s := by
  intro before after hsplit
  exact Nat.le_trans (h.inTurn before after hsplit) (Nat.le_add_left _ _)

/-- Balanced segments may come behind. -/
theorem append (h : InTurn depth l) (hr : Balanced r) : InTurn depth (l ++ r) := by
  intro before after hsplit
  rcases List.append_eq_append_iff.1 hsplit with ⟨inner, rfl, hright⟩ | ⟨inner, hleft, -⟩
  · have hinner := hr.inTurn inner after hright
    have hwhole := h.whole
    rw [closings_append, openings_append]
    omega
  · exact h before inner hleft

/-- The depth behind the first segment. -/
theorem tail (h : InTurn depth (x :: s)) :
    (x.kind = .leftParen → InTurn (depth + 1) s)
      ∧ (x.kind = .rightParen → 0 < depth ∧ InTurn (depth - 1) s)
      ∧ (x.kind ≠ .leftParen → x.kind ≠ .rightParen → InTurn depth s) := by
  refine ⟨fun hx before after hsplit => ?_, fun hx => ?_,
    fun hopen hclose before after hsplit => ?_⟩
  · have hturn := h (x :: before) after (by rw [hsplit, List.cons_append])
    simp only [closings_cons, openings_cons, hx, ↓reduceIte, reduceCtorEq] at hturn
    omega
  · have hfirst := h [x] s rfl
    simp only [closings_cons, openings_cons, closings_nil, openings_nil, hx, ↓reduceIte,
      reduceCtorEq] at hfirst
    refine ⟨by omega, fun before after hsplit => ?_⟩
    have hturn := h (x :: before) after (by rw [hsplit, List.cons_append])
    simp only [closings_cons, openings_cons, hx, ↓reduceIte, reduceCtorEq] at hturn
    omega
  · have hturn := h (x :: before) after (by rw [hsplit, List.cons_append])
    simpa [hopen, hclose] using hturn

/-- What is of the own level behind some segments depends on how many
parentheses they leave open. -/
theorem level_append (h : InTurn depth l) (r : List Segment) :
    level depth (l ++ r) = level depth l ++ level (depth + openings l - closings l) r := by
  induction l generalizing depth with
  | nil => simp [level]
  | cons x l ih =>
      obtain ⟨hopen, hclose, hplain⟩ := h.tail
      -- A parenthesis changes the depth of what is behind it, and a group of the own level counts
      -- with its opening one.
      cases hx : x.kind with
      | leftParen =>
          have hrest := ih (hopen hx)
          rw [Nat.add_right_comm] at hrest
          by_cases hdepth : depth = 0
          · subst hdepth
            simp_all [level]
          · simp [level, hx, hdepth, hrest, Nat.add_assoc]
      | rightParen =>
          obtain ⟨hpositive, hturn⟩ := hclose hx
          have hbehind : depth - 1 + openings l - closings l
              = depth + openings l - (closings l + 1) := by
            omega
          simp [level, hx, ih hturn, hbehind]
      | literal =>
          have hrest := ih (hplain (by simp [hx]) (by simp [hx]))
          by_cases hdepth : depth = 0 <;> simp_all [level]
      | operator =>
          have hrest := ih (hplain (by simp [hx]) (by simp [hx]))
          by_cases hdepth : depth = 0 <;> simp_all [level]
      | function =>
          have hrest := ih (hplain (by simp [hx]) (by simp [hx]))
          by_cases hdepth : depth = 0 <;> simp_all [level]
      | comma =>
          have hrest := ih (hplain (by simp [hx]) (by simp [hx]))
          by_cases hdepth : depth = 0 <;> simp_all [level]

/-- Deeper down nothing is of the own level. -/
theorem level_eq_nil (h : InTurn depth s) : level (depth + 1) s = [] := by
  induction s generalizing depth with
  | nil => rfl
  | cons x s ih =>
      obtain ⟨hopen, hclose, hplain⟩ := h.tail
      cases hx : x.kind with
      | leftParen => simpa [level, hx] using ih (hopen hx)
      | rightParen =>
          obtain ⟨hpositive, hturn⟩ := hclose hx
          have hrest := ih hturn
          rw [Nat.sub_add_cancel hpositive] at hrest
          simpa [level, hx] using hrest
      | literal => simpa [level, hx] using ih (hplain (by simp [hx]) (by simp [hx]))
      | operator => simpa [level, hx] using ih (hplain (by simp [hx]) (by simp [hx]))
      | function => simpa [level, hx] using ih (hplain (by simp [hx]) (by simp [hx]))
      | comma => simpa [level, hx] using ih (hplain (by simp [hx]) (by simp [hx]))

end InTurn

/-- What is built up has no part in the own level deeper down. -/
theorem Matched.level_deeper {inner : List Segment} (h : Matched inner) (depth : Nat)
    (s : List Segment) : level (depth + 1) (inner ++ s) = level (depth + 1) s := by
  have hbalanced := h.balanced
  rw [(InTurn.of_balanced hbalanced (depth + 1)).level_append,
    (InTurn.of_balanced hbalanced depth).level_eq_nil, List.nil_append, hbalanced.even,
    Nat.add_sub_cancel]

/-- Parentheses with what they enclose are one segment of the own level. -/
theorem Matched.level_group {o c : Segment} {inner : List Segment} (h : Matched inner)
    (ho : o.kind = .leftParen) (hc : c.kind = .rightParen) (s : List Segment) :
    level 0 (o :: (inner ++ c :: s)) = o :: level 0 s := by
  have hinner := h.level_deeper 0 (c :: s)
  simp only [Nat.zero_add] at hinner
  simp [level, ho, hc, hinner]

-- =============================================================== arguments

/-- Whether a segment of the own level begins an operand. -/
def Segment.beginsOperand (x : Segment) : Bool :=
  x.kind == .literal || x.kind == .leftParen

/-- The arguments of a call, of the segments of its own level. -/
def arguments (inner : List Segment) : List (List Segment) :=
  (level 0 inner).splitOnP (·.kind == .comma)

/-- How many arguments there are: none where nothing is enclosed, and one more
than commas of the own level elsewhere (`length_arguments`). -/
def argumentCount (inner : List Segment) : Nat :=
  if inner = [] then 0 else 1 + (level 0 inner).countP (·.kind == .comma)

/-- How many operands of an argument have no operator in front of them. -/
def leading (argument : List Segment) : Nat :=
  (argument.takeWhile (·.kind != .operator)).countP Segment.beginsOperand

/-- How many operands of all arguments are leading. -/
def leadingCount (inner : List Segment) : Nat :=
  ((arguments inner).map leading).sum

/-- How many operands follow a comma, or what stands in front of it all,
without an operator in between. -/
def begins : Bool → List Segment → Nat
  | _, [] => 0
  | fresh, x :: s =>
    match x.kind with
    | .comma => begins true s
    | .operator => begins false s
    | .literal | .leftParen => (if fresh then 1 else 0) + begins fresh s
    | _ => begins fresh s

/-- A group is one operand. -/
theorem Matched.begins_group {o c : Segment} {inner : List Segment} (h : Matched inner)
    (ho : o.kind = .leftParen) (hc : c.kind = .rightParen) (fresh : Bool) (s : List Segment) :
    begins fresh (level 0 (o :: (inner ++ c :: s)))
      = (if fresh then 1 else 0) + begins fresh (level 0 s) := by
  rw [h.level_group ho hc, begins, ho]

/-- A call is one operand. -/
theorem Matched.begins_call {f o c : Segment} {inner : List Segment} (h : Matched inner)
    (hf : f.kind = .function) (ho : o.kind = .leftParen) (hc : c.kind = .rightParen)
    (fresh : Bool) (s : List Segment) :
    begins fresh (level 0 (f :: o :: (inner ++ c :: s)))
      = (if fresh then 1 else 0) + begins fresh (level 0 s) := by
  rw [level_plain _ (by simp [hf]) (by simp [hf]), begins, hf]
  exact h.begins_group ho hc fresh s

/-- Told along the list or argument by argument, the leading operands are the
same. -/
theorem begins_eq_sum (s : List Segment) :
    begins true s = ((s.splitOnP (·.kind == .comma)).map leading).sum
      ∧ begins false s = ((s.splitOnP (·.kind == .comma)).tail.map leading).sum := by
  induction s with
  | nil => exact ⟨rfl, rfl⟩
  | cons x s ih =>
      obtain ⟨first, others, hsplit⟩ := List.exists_cons_of_ne_nil
        (List.splitOnP_ne_nil (·.kind == .comma) s)
      rw [hsplit] at ih
      simp only [List.map_cons, List.sum_cons, List.tail_cons] at ih
      obtain ⟨hfresh, hbehind⟩ := ih
      rw [List.splitOnP_cons_eq_if_modifyHead, hsplit]
      cases hx : x.kind with
      | comma => simp [begins, leading, hx, hfresh]
      | operator => simp [begins, leading, hx, hbehind]
      | literal =>
          simp [begins, leading, Segment.beginsOperand, hx, hfresh, hbehind]
          omega
      | leftParen =>
          simp [begins, leading, Segment.beginsOperand, hx, hfresh, hbehind]
          omega
      | rightParen => simp [begins, leading, Segment.beginsOperand, hx, hfresh, hbehind]
      | function => simp [begins, leading, Segment.beginsOperand, hx, hfresh, hbehind]

theorem leadingCount_eq_begins (inner : List Segment) :
    leadingCount inner = begins true (level 0 inner) :=
  (begins_eq_sum (level 0 inner)).1.symm

/-- Commas part the arguments. -/
theorem length_arguments {inner : List Segment} (h : inner ≠ []) :
    (arguments inner).length = argumentCount inner := by
  have hparts : ∀ s : List Segment,
      (s.splitOnP (·.kind == .comma)).length = 1 + s.countP (·.kind == .comma) := by
    intro s
    induction s with
    | nil => rfl
    | cons x s ih =>
        rw [List.splitOnP_cons_eq_if_modifyHead]
        by_cases hx : x.kind = .comma
        · simp [hx, ih, Nat.add_comm]
        · simp [hx, ih]
  rw [argumentCount, if_neg h]
  exact hparts (level 0 inner)

-- ============================================================== in order

/-- Whether an operand is due, or what may follow one; no call has just begun. -/
def Due.Settled (due : Due) : Prop :=
  due = .operand ∨ due = .operator

namespace Due

variable {due last : Due} {o c : Segment} {inner s : List Segment}

/-- Behind what parentheses enclose, an operand is complete. -/
theorem after_closed (hc : c.kind = .rightParen)
    (hinner : ∀ within, due.after inner = some within → within = .argument ∨ within.Settled)
    (h : due.after (inner ++ c :: s) = some last) : operator.after s = some last := by
  rw [after_append] at h
  obtain ⟨within, hwithin, h⟩ := Option.bind_eq_some_iff.1 h
  rw [after, hc] at h
  rcases hinner within hwithin with rfl | rfl | rfl
  · exact h
  · simp [behind] at h
  · exact h

theorem after_group (ho : o.kind = .leftParen) (hc : c.kind = .rightParen)
    (hinner : ∀ within, operand.after inner = some within → within.Settled) (hdue : due.Settled)
    (h : due.after (o :: (inner ++ c :: s)) = some last) :
    due = .operand ∧ operator.after s = some last := by
  rw [after, ho] at h
  rcases hdue with rfl | rfl
  · exact ⟨rfl, after_closed hc (fun within hwithin => Or.inr (hinner within hwithin)) h⟩
  · simp [behind] at h

end Due

/-- The first argument begins like any operand. -/
theorem Matched.after_argument {inner : List Segment} (h : Matched inner) {within : Due}
    (hwithin : Due.argument.after inner = some within) :
    inner = [] ∧ within = .argument ∨ Due.operand.after inner = some within := by
  cases h with
  | nil => exact Or.inl ⟨rfl, (Option.some.inj hwithin).symm⟩
  | plain hx _ =>
      right
      rcases hx with hx | hx | hx
      · simpa [Due.after, Due.behind, hx] using hwithin
      · simp [Due.after, Due.behind, hx] at hwithin
      · simp [Due.after, Due.behind, hx] at hwithin
  | group ho _ _ _ =>
      right
      simpa [Due.after, Due.behind, ho] using hwithin
  | call hf _ _ _ _ =>
      right
      simpa [Due.after, Due.behind, hf] using hwithin

theorem Due.after_call {due last : Due} {f o c : Segment} {inner s : List Segment}
    (hf : f.kind = .function) (ho : o.kind = .leftParen) (hmatched : Matched inner)
    (hc : c.kind = .rightParen)
    (hinner : ∀ within, operand.after inner = some within → within.Settled) (hdue : due.Settled)
    (h : due.after (f :: o :: (inner ++ c :: s)) = some last) :
    due = .operand ∧ operator.after s = some last := by
  rw [after, hf] at h
  rcases hdue with rfl | rfl
  · have hargument : argument.after (inner ++ c :: s) = some last := by
      simpa [after, behind, ho] using h
    refine ⟨rfl, after_closed hc (fun within hwithin => ?_) hargument⟩
    exact (hmatched.after_argument hwithin).imp And.right (hinner within)
  · simp [behind] at h

/-- In order, matched segments begin and end between operands and operators. -/
theorem Matched.settled {s : List Segment} (h : Matched s) :
    ∀ {due last : Due}, due.Settled → due.after s = some last → last.Settled := by
  induction h with
  | nil =>
      intro due last hdue hlast
      rwa [← Option.some.inj hlast]
  | plain hx _ ih =>
      intro due last hdue hlast
      obtain ⟨next, hnext, hlast⟩ := Option.bind_eq_some_iff.1 hlast
      refine ih ?_ hlast
      rcases hx with hx | hx | hx <;> rcases hdue with rfl | rfl <;>
        simp_all [Due.behind, Due.Settled]
  | group ho _ hc _ ihinside ihrest =>
      intro due last hdue hlast
      have hinside : ∀ within, Due.operand.after _ = some within → within.Settled :=
        fun _ => ihinside (Or.inl rfl)
      obtain ⟨-, hrest⟩ := Due.after_group ho hc hinside hdue hlast
      exact ihrest (Or.inr rfl) hrest
  | call hf ho hmatched hc _ ihinside ihrest =>
      intro due last hdue hlast
      have hinside : ∀ within, Due.operand.after _ = some within → within.Settled :=
        fun _ => ihinside (Or.inl rfl)
      obtain ⟨-, hrest⟩ := Due.after_call hf ho hmatched hc hinside hdue hlast
      exact ihrest (Or.inr rfl) hrest

/-- In order, a comma and nothing else has a new operand follow that is
leading, besides the first one if it is still due. -/
theorem Matched.begins_of_after {s : List Segment} (h : Matched s) :
    (Due.operand.after s = some .operator →
      begins true (level 0 s) = 1 + (level 0 s).countP (·.kind == .comma)
        ∧ begins false (level 0 s) = (level 0 s).countP (·.kind == .comma))
    ∧ (Due.operator.after s = some .operator → ∀ fresh,
      begins fresh (level 0 s) = (level 0 s).countP (·.kind == .comma)) := by
  induction h with
  | nil => exact ⟨by simp [Due.after], fun _ fresh => by cases fresh <;> rfl⟩
  | @plain x s hx _ ih =>
      obtain ⟨ihoperand, ihoperator⟩ := ih
      -- Behind an operand no operand is due, so the bit no longer matters there.
      rw [level_plain s (by rcases hx with hx | hx | hx <;> simp [hx])
        (by rcases hx with hx | hx | hx <;> simp [hx])]
      rcases hx with hx | hx | hx
      · refine ⟨fun hafter => ?_, fun hafter => by simp [Due.after, Due.behind, hx] at hafter⟩
        have hrest : Due.operator.after s = some .operator := by
          simpa [Due.after, Due.behind, hx] using hafter
        simp [begins, hx, ihoperator hrest]
      · refine ⟨fun hafter => by simp [Due.after, Due.behind, hx] at hafter, fun hafter fresh => ?_⟩
        have hrest : Due.operand.after s = some .operator := by
          simpa [Due.after, Due.behind, hx] using hafter
        simp [begins, hx, (ihoperand hrest).2]
      · refine ⟨fun hafter => by simp [Due.after, Due.behind, hx] at hafter, fun hafter fresh => ?_⟩
        have hrest : Due.operand.after s = some .operator := by
          simpa [Due.after, Due.behind, hx] using hafter
        simp [begins, hx, (ihoperand hrest).1, Nat.add_comm]
  | @group o c inner s ho hinner hc _ _ ihrest =>
      have hinside : ∀ within, Due.operand.after inner = some within → within.Settled :=
        fun _ => hinner.settled (Or.inl rfl)
      -- A group shows by its opening parenthesis only, and what is behind it follows an operand.
      rw [hinner.level_group ho hc]
      constructor
      · intro hafter
        obtain ⟨-, hrest⟩ := Due.after_group ho hc hinside (Or.inl rfl) hafter
        simp [begins, ho, ihrest.2 hrest]
      · intro hafter
        obtain ⟨hdue, -⟩ := Due.after_group ho hc hinside (Or.inr rfl) hafter
        cases hdue
  | @call f o c inner s hf ho hinner hc _ _ ihrest =>
      have hinside : ∀ within, Due.operand.after inner = some within → within.Settled :=
        fun _ => hinner.settled (Or.inl rfl)
      rw [level_plain _ (by simp [hf]) (by simp [hf]), hinner.level_group ho hc]
      constructor
      · intro hafter
        obtain ⟨-, hrest⟩ := Due.after_call hf ho hinner hc hinside (Or.inl rfl) hafter
        simp [begins, hf, ho, ihrest.2 hrest]
      · intro hafter
        obtain ⟨hdue, -⟩ := Due.after_call hf ho hinner hc hinside (Or.inr rfl) hafter
        cases hdue

/-- Where all is in order, what a call encloses is in order as well. -/
theorem InOrder.inside {segments before inner : List Segment} {f : Segment}
    (h : InOrder segments) (hcall : CallIn segments before f inner) (hinner : Matched inner) :
    inner = [] ∨ InOrder inner := by
  cases hcall with
  | @intro _ _ after _ o c hf ho _ hc =>
      unfold InOrder at h ⊢
      rw [Due.after_append] at h
      obtain ⟨due, -, h⟩ := Option.bind_eq_some_iff.1 h
      have hargument : Due.argument.after (inner ++ c :: after) = some .operator := by
        rw [Due.after, hf] at h
        cases due <;> simp_all [Due.behind, Due.after]
      rw [Due.after_append] at hargument
      obtain ⟨within, hwithin, hclose⟩ := Option.bind_eq_some_iff.1 hargument
      rw [Due.after, hc] at hclose
      refine (hinner.after_argument hwithin).imp And.left fun hoperand => ?_
      rcases hinner.settled (Or.inl rfl) hoperand with rfl | rfl
      · simp [Due.behind] at hclose
      · exact hoperand

/-- Where all is in order, one operand leads each argument. -/
theorem leadingCount_of_inOrder {inner : List Segment} (h : inner = [] ∨ InOrder inner)
    (hinner : Matched inner) : leadingCount inner = argumentCount inner := by
  rw [leadingCount_eq_begins]
  rcases h with rfl | h
  · rfl
  · have hne : inner ≠ [] := by
      rintro rfl
      simp [InOrder, Due.after] at h
    rw [argumentCount, if_neg hne]
    exact (hinner.begins_of_after.1 h).1

end UnitCalc
