/-
Parentheses that match, said of a whole list by counting.

Nothing is closed that was not opened, and in the end as much is closed as was
opened (`Balanced`). The innermost parenthesis open behind a list is the one
that only balanced segments follow (`Innermost`), and a comma asks which segment
stands in front of it (`InCall`).

None of this walks through the list, as `bracketsAfter` does. The proofs about
it are arithmetic on two counts, `openings` and `closings`, wherever the list is
cut.

# The bridge

The two meet in `Opened`, which takes a list apart at its open parentheses: each
has balanced segments behind it, up to the next one. A segment that
`bracketsBehind` admits keeps it (`Opened.step`), and `bracketsBehind` admits a
segment exactly if it separates what it should and closes something open
(`Opened.admits_iff`). So the parentheses found open on the way are the ones
that counting finds, and the walk comes to its end with nothing open exactly if
the parentheses match and every segment separates (`nests_iff`, by induction on
what is still ahead, for whatever is open).

`Proofs/Reduction/Acceptance` states with it which lists are reduced, and
`Proofs/Grammar/Levels` takes balanced lists apart.
-/
import UnitCalc.Proofs.Grammar.Brackets

namespace UnitCalc

-- ================================================================ counting

/-- How many parentheses some segments open. -/
def openings (segments : List Segment) : Nat :=
  segments.countP (·.kind == .leftParen)

/-- How many parentheses some segments close. -/
def closings (segments : List Segment) : Nat :=
  segments.countP (·.kind == .rightParen)

@[simp] theorem openings_nil : openings [] = 0 := rfl

@[simp] theorem closings_nil : closings [] = 0 := rfl

@[simp] theorem openings_append (l r : List Segment) :
    openings (l ++ r) = openings l + openings r :=
  List.countP_append

@[simp] theorem closings_append (l r : List Segment) :
    closings (l ++ r) = closings l + closings r :=
  List.countP_append

@[simp] theorem openings_cons (x : Segment) (s : List Segment) :
    openings (x :: s) = openings s + if x.kind = .leftParen then 1 else 0 := by
  simp [openings, List.countP_cons]

@[simp] theorem closings_cons (x : Segment) (s : List Segment) :
    closings (x :: s) = closings s + if x.kind = .rightParen then 1 else 0 := by
  simp [closings, List.countP_cons]

/-- Whether every parenthesis has its partner. -/
structure Balanced (segments : List Segment) : Prop where
  /-- Nothing is closed before it is opened. -/
  inTurn : ∀ before after, segments = before ++ after → closings before ≤ openings before
  /-- Nothing stays open. -/
  even : closings segments = openings segments

namespace Balanced

theorem nil : Balanced [] where
  inTurn := by
    intro before after h
    obtain ⟨rfl, -⟩ := List.append_eq_nil_iff.1 h.symm
    exact Nat.le_refl _
  even := rfl

theorem append {l r : List Segment} (hl : Balanced l) (hr : Balanced r) : Balanced (l ++ r) where
  inTurn := by
    intro before after h
    rcases List.append_eq_append_iff.1 h with ⟨inner, rfl, hright⟩ | ⟨inner, hleft, -⟩
    · -- A cut within the second part has the whole first part in front, which leaves nothing
      -- open.
      have hinner := hr.inTurn inner after hright
      have heven := hl.even
      rw [closings_append, openings_append]
      omega
    · exact hl.inTurn before inner hleft
  even := by
    rw [closings_append, openings_append, hl.even, hr.even]

theorem singleton {x : Segment} (hopen : x.kind ≠ .leftParen) (hclose : x.kind ≠ .rightParen) :
    Balanced [x] where
  inTurn := by
    intro before after h
    have hclosings := congrArg closings h
    simp only [closings_cons, closings_nil, hclose, ↓reduceIte, closings_append] at hclosings
    omega
  even := by
    simp [hopen, hclose]

theorem wrap {s : List Segment} {o c : Segment} (h : Balanced s) (ho : o.kind = .leftParen)
    (hc : c.kind = .rightParen) : Balanced (o :: s ++ [c]) where
  inTurn := by
    intro before after hsplit
    rw [List.cons_append, List.cons_eq_append_iff] at hsplit
    rcases hsplit with ⟨rfl, -⟩ | ⟨inner, rfl, hsplit⟩
    · exact Nat.le_refl _
    · rcases List.append_eq_append_iff.1 hsplit with ⟨last, rfl, hlast⟩ | ⟨last, hinner, -⟩
      · have hclosings := congrArg closings hlast
        have heven := h.even
        simp only [closings_cons, closings_nil, hc, ↓reduceIte, closings_append] at hclosings
        simp only [closings_cons, openings_cons, closings_append, openings_append, ho, ↓reduceIte,
          reduceCtorEq]
        omega
      · have hturn := h.inTurn inner last hinner
        simp only [closings_cons, openings_cons, ho, ↓reduceIte, reduceCtorEq]
        omega
  even := by
    have heven := h.even
    simp only [List.cons_append, closings_cons, openings_cons, closings_append, openings_append,
      closings_nil, openings_nil, ho, hc, ↓reduceIte, reduceCtorEq]
    omega

/-- Among balanced segments no parenthesis is open in front of balanced
ones. -/
theorem not_open {l r : List Segment} {o : Segment} (h : Balanced (l ++ o :: r))
    (hr : Balanced r) : o.kind ≠ .leftParen := by
  intro ho
  have hturn := h.inTurn l (o :: r) rfl
  have hall := h.even
  have heven := hr.even
  simp only [closings_append, openings_append, closings_cons, openings_cons, ho, ↓reduceIte,
    reduceCtorEq] at hall
  omega

end Balanced

-- ================================================== the innermost parenthesis

/-- The kind of the last segment. -/
def lastKind (segments : List Segment) : Option SegmentKind :=
  segments.getLast?.map Segment.kind

@[simp] theorem lastKind_concat (s : List Segment) (x : Segment) :
    lastKind (s ++ [x]) = some x.kind := by
  simp [lastKind]

theorem lastKind_append {s : List Segment} {kind : SegmentKind} (front : List Segment)
    (h : lastKind s = some kind) : lastKind (front ++ s) = some kind := by
  obtain ⟨x, hlast, hkind⟩ := Option.map_eq_some_iff.1 h
  rw [lastKind, List.getLast?_append, hlast, Option.some_or, Option.map_some, hkind]

/-- Whether a parenthesis is the innermost one that is open behind some
segments; `outer` is what stands in front of it. -/
def Innermost (segments outer : List Segment) (o : Segment) : Prop :=
  o.kind = .leftParen ∧ ∃ inner, segments = outer ++ o :: inner ∧ Balanced inner

/-- Whether the innermost parenthesis that is open behind some segments
stands right behind a function. -/
def InCall (segments : List Segment) : Prop :=
  ∃ outer o, Innermost segments outer o ∧ lastKind outer = some .function

/-- There is one innermost parenthesis at most. -/
theorem Innermost.unique {segments outer outer' : List Segment} {o o' : Segment}
    (h : Innermost segments outer o) (h' : Innermost segments outer' o') : outer = outer' := by
  obtain ⟨ho, inner, rfl, hinner⟩ := h
  obtain ⟨ho', inner', hsplit, hinner'⟩ := h'
  rcases List.append_eq_append_iff.1 hsplit with ⟨between, rfl, hrest⟩ | ⟨between, rfl, hrest⟩
  · rcases List.cons_eq_append_iff.1 hrest with ⟨rfl, -⟩ | ⟨between, rfl, rfl⟩
    · exact (List.append_nil outer).symm
    · -- The one that stands further left would have the other among the balanced segments behind
      -- it.
      exact absurd ho' (hinner.not_open hinner')
  · rcases List.cons_eq_append_iff.1 hrest with ⟨rfl, -⟩ | ⟨between, rfl, rfl⟩
    · exact List.append_nil outer'
    · exact absurd ho (hinner'.not_open hinner)

/-- Balanced segments leave no parenthesis open. -/
theorem Balanced.not_innermost {segments outer : List Segment} {o : Segment}
    (h : Balanced segments) : ¬ Innermost segments outer o := by
  rintro ⟨ho, inner, rfl, hinner⟩
  exact h.not_open hinner ho

-- ==================================================== the open parentheses

/-- Segments with their open parentheses, the innermost first, each with
whether it stands behind a function. -/
inductive Opened : List Bool → List Segment → Prop
  | none {s : List Segment} (balanced : Balanced s) : Opened [] s
  | inside {opened : List Bool} {outer inner : List Segment} {o : Segment}
      (around : Opened opened outer) (opens : o.kind = .leftParen) (balanced : Balanced inner) :
      Opened ((lastKind outer == some .function) :: opened) (outer ++ o :: inner)

namespace Opened

variable {opened : List Bool} {s : List Segment}

theorem append {more : List Segment} (h : Opened opened s) (hmore : Balanced more) :
    Opened opened (s ++ more) := by
  cases h with
  | none hs => exact .none (hs.append hmore)
  | inside haround ho hinner =>
      rw [List.append_assoc, List.cons_append]
      exact .inside haround ho (hinner.append hmore)

theorem push {o : Segment} (h : Opened opened s) (ho : o.kind = .leftParen) :
    Opened ((lastKind s == some .function) :: opened) (s ++ [o]) :=
  .inside h ho .nil

theorem pop {call : Bool} {c : Segment} (h : Opened (call :: opened) s)
    (hc : c.kind = .rightParen) : Opened opened (s ++ [c]) := by
  cases h with
  | inside haround ho hinner =>
      rw [List.append_assoc]
      exact haround.append (hinner.wrap ho hc)

/-- What is open has been opened and not been closed. -/
theorem openings_eq (h : Opened opened s) : openings s = closings s + opened.length := by
  induction h with
  | none hs => rw [hs.even, List.length_nil, Nat.add_zero]
  | inside _ ho hinner ih =>
      have heven := hinner.even
      simp only [openings_append, closings_append, openings_cons, closings_cons, ho, ↓reduceIte,
        reduceCtorEq, List.length_cons]
      omega

/-- Nothing is open exactly behind balanced segments. -/
theorem balanced_iff (h : Opened opened s) : Balanced s ↔ opened = [] := by
  constructor
  · intro hbalanced
    have hlength := h.openings_eq
    have heven := hbalanced.even
    exact List.length_eq_zero_iff.1 (by omega)
  · rintro rfl
    cases h with
    | none hs => exact hs

theorem inCall_iff (h : Opened opened s) : InCall s ↔ opened.head? = some true := by
  cases h with
  | none hs =>
      refine iff_of_false ?_ (by simp)
      rintro ⟨outer, o, hinnermost, -⟩
      exact hs.not_innermost hinnermost
  | @inside opened outer inner o haround ho hinner =>
      have hinnermost : Innermost (outer ++ o :: inner) outer o := ⟨ho, inner, rfl, hinner⟩
      simp only [List.head?_cons, Option.some.injEq, beq_iff_eq]
      constructor
      · rintro ⟨outer', o', hinnermost', hfunction⟩
        rwa [hinnermost.unique hinnermost']
      · intro hfunction
        exact ⟨outer, o, hinnermost, hfunction⟩

end Opened

-- ========================================================= one more segment

/-- What nesting asks of a comma or a closing parenthesis, besides that the
parentheses match. -/
structure Separates (before : List Segment) (x : Segment) : Prop where
  comma : x.kind = .comma →
    InCall before ∧ lastKind before ≠ some .leftParen ∧ lastKind before ≠ some .comma
  close : x.kind = .rightParen → lastKind before ≠ some .comma

namespace Opened

variable {opened next : List Bool} {s : List Segment} {x : Segment}

/-- The walk admits a segment exactly if it separates and, where it closes a
parenthesis, one is open. -/
theorem admits_iff (h : Opened opened s) :
    (bracketsBehind (lastKind s) opened x.kind).isSome
      ↔ Separates s x ∧ (x.kind = .rightParen → opened ≠ []) := by
  cases hx : x.kind with
  | comma =>
      have hcall := h.inCall_iff
      constructor
      · intro hsome
        obtain ⟨next, hnext⟩ := Option.isSome_iff_exists.1 hsome
        obtain ⟨-, ⟨outer, rfl⟩, hopen, hcomma⟩ := bracketsBehind_comma hnext
        exact ⟨⟨fun _ => ⟨hcall.2 rfl, hopen, hcomma⟩, by simp [hx]⟩, by simp⟩
      · rintro ⟨hseparates, -⟩
        obtain ⟨hinCall, hopen, hcomma⟩ := hseparates.comma hx
        obtain ⟨outer, rfl⟩ := List.head?_eq_some_iff.1 (hcall.1 hinCall)
        simp [bracketsBehind, hopen, hcomma]
  | rightParen =>
      constructor
      · intro hsome
        obtain ⟨next, hnext⟩ := Option.isSome_iff_exists.1 hsome
        obtain ⟨call, rfl, hcomma⟩ := bracketsBehind_rightParen hnext
        exact ⟨⟨by simp [hx], fun _ => hcomma⟩, by simp⟩
      · rintro ⟨hseparates, hopen⟩
        obtain ⟨call, outer, rfl⟩ := List.exists_cons_of_ne_nil (hopen rfl)
        simp [bracketsBehind, hseparates.close hx]
  | leftParen => exact iff_of_true rfl ⟨⟨by simp [hx], by simp [hx]⟩, by simp⟩
  | literal => exact iff_of_true rfl ⟨⟨by simp [hx], by simp [hx]⟩, by simp⟩
  | operator => exact iff_of_true rfl ⟨⟨by simp [hx], by simp [hx]⟩, by simp⟩
  | function => exact iff_of_true rfl ⟨⟨by simp [hx], by simp [hx]⟩, by simp⟩

/-- A segment that is no parenthesis leaves what is open as it is. -/
theorem keep (h : Opened opened s) (hopen : x.kind ≠ .leftParen) (hclose : x.kind ≠ .rightParen) :
    Opened opened (s ++ [x]) :=
  h.append (.singleton hopen hclose)

/-- The walk goes on with the parentheses that are open. -/
theorem step (h : Opened opened s)
    (hnext : bracketsBehind (lastKind s) opened x.kind = some next) :
    Opened next (s ++ [x]) := by
  cases hx : x.kind with
  | leftParen =>
      rw [hx] at hnext
      obtain rfl := Option.some.inj hnext
      exact h.push hx
  | rightParen =>
      rw [hx] at hnext
      obtain ⟨call, rfl, -⟩ := bracketsBehind_rightParen hnext
      exact h.pop hx
  | comma =>
      rw [hx] at hnext
      obtain ⟨rfl, -⟩ := bracketsBehind_comma hnext
      exact h.keep (by simp [hx]) (by simp [hx])
  | literal =>
      rw [hx] at hnext
      obtain rfl := Option.some.inj hnext
      exact h.keep (by simp [hx]) (by simp [hx])
  | operator =>
      rw [hx] at hnext
      obtain rfl := Option.some.inj hnext
      exact h.keep (by simp [hx]) (by simp [hx])
  | function =>
      rw [hx] at hnext
      obtain rfl := Option.some.inj hnext
      exact h.keep (by simp [hx]) (by simp [hx])

/-- Where nothing is open, nothing may be closed. -/
theorem open_of_balanced {more : List Segment} (h : Opened opened s)
    (hbalanced : Balanced (s ++ x :: more)) (hx : x.kind = .rightParen) : opened ≠ [] := by
  rintro rfl
  have heven := (h.balanced_iff.2 rfl).even
  have hturn := hbalanced.inTurn (s ++ [x]) more (by simp)
  simp only [closings_append, openings_append, closings_cons, openings_cons, closings_nil,
    openings_nil, hx, ↓reduceIte, reduceCtorEq] at hturn
  omega

end Opened

-- ========================================================== all segments

/-- Whether something holds of every segment, of what stands in front of it
and of what stands behind it. -/
def Everywhere (P : List Segment → Segment → List Segment → Prop) (segments : List Segment) :
    Prop :=
  ∀ before x after, segments = before ++ x :: after → P before x after

theorem everywhere_nil (P : List Segment → Segment → List Segment → Prop) : Everywhere P [] := by
  intro before x after h
  simp at h

theorem everywhere_cons {P : List Segment → Segment → List Segment → Prop} {x : Segment}
    {s : List Segment} :
    Everywhere P (x :: s) ↔ P [] x s ∧ Everywhere (fun before => P (x :: before)) s := by
  constructor
  · intro h
    refine ⟨h [] x s rfl, ?_⟩
    rintro before y after rfl
    exact h (x :: before) y after rfl
  · rintro ⟨hfirst, hrest⟩ before y after hsplit
    rcases List.cons_eq_append_iff.1 hsplit with ⟨rfl, hwhole⟩ | ⟨before, rfl, hbehind⟩
    · obtain ⟨rfl, rfl⟩ := List.cons.inj hwhole
      exact hfirst
    · exact hrest before y after hbehind

/-- The walk behind some segments ends with nothing open exactly if all
parentheses match and every segment separates. -/
theorem Opened.bracketsAfter_iff {segments : List Segment} :
    ∀ {opened : List Bool} {s : List Segment}, Opened opened s →
      (bracketsAfter (lastKind s) opened segments = some []
        ↔ Balanced (s ++ segments)
          ∧ Everywhere (fun before x _ => Separates (s ++ before) x) segments) := by
  induction segments with
  | nil =>
      intro opened s h
      rw [bracketsAfter, Option.some.injEq, List.append_nil, h.balanced_iff]
      exact (and_iff_left (everywhere_nil _)).symm
  | cons x segments ih =>
      intro opened s h
      rw [everywhere_cons, List.append_nil, bracketsAfter]
      cases hnext : bracketsBehind (lastKind s) opened x.kind with
      | none =>
          -- The walk stops here, and then one of the two conditions fails here as well.
          refine iff_of_false (by simp) ?_
          rintro ⟨hbalanced, hseparates, -⟩
          have hsome := h.admits_iff.2 ⟨hseparates, h.open_of_balanced hbalanced⟩
          simp [hnext] at hsome
      | some next =>
          have hrest := ih (h.step hnext)
          have hseparates : Separates s x := (h.admits_iff.1 (by rw [hnext]; rfl)).1
          rw [lastKind_concat] at hrest
          simp only [List.append_assoc, List.singleton_append] at hrest
          rw [Option.bind_some, hrest, and_iff_right hseparates]

/-- Segments nest exactly if their parentheses match and every comma and
every closing parenthesis stands where it may. -/
theorem nests_iff {segments : List Segment} :
    Nests segments
      ↔ Balanced segments ∧ Everywhere (fun before x _ => Separates before x) segments :=
  (Opened.none Balanced.nil).bracketsAfter_iff

end UnitCalc
