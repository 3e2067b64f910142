/-
Numbers and what comes right behind them.

Two things can: another literal (`Juxtaposed`), and an operator that could
have been the unit of the number (`Detached`). Only numbers with no function
before them are asked about; the name of a function begins a call of its own,
whose argument it is that is read from there on.

# Growing lists

A scan adds segments at the end, so both are said again for a list with one
more segment (`followed_concat`): it was so before, or a number is last
(`Pending`) and the new segment has the property. The functions that decide
both go from the front instead (`followed_cons`), where a list is taken apart.

Whether a source is cut alike inside of an argument and outside of it turns on
these two (`Proofs/Scan/InCall`).
-/
import UnitCalc.Quantity
import UnitCalc.Segment.Basic
import UnitCalc.Unit.Registry

namespace UnitCalc

open Text

/-- Whether a segment is a number with no function before it. -/
def Exposed (before : List Segment) (x : Segment) : Prop :=
  x.kind = .literal ∧ Quantity.isNumberText x.text.toList = true
    ∧ ∀ z ∈ before, z.kind ≠ .function

/-- Whether some number with no function before it has such a segment right
behind it. -/
def Followed (p : Segment → Prop) (segments : List Segment) : Prop :=
  ∃ before x y after, segments = before ++ x :: y :: after ∧ Exposed before x ∧ p y

/-- Whether the last segment is a number with no function before it. -/
def Pending (segments : List Segment) : Prop :=
  ∃ before x, segments = before ++ [x] ∧ Exposed before x

/-- Whether a number is followed by another literal. -/
def Juxtaposed (segments : List Segment) : Prop :=
  Followed (fun y => y.kind = .literal) segments

/-- Whether a number is followed by an operator that could be its unit: one
that ends a word and has a blank other than a gap right before it. -/
def Detached (units : UnitRegistry) (source : List Char) (segments : List Segment) : Prop :=
  Followed (fun y => y.kind = .operator ∧ units.isUnit y.text = true
    ∧ source[y.position - 1]?.all (fun c => !isGap c) = true
    ∧ source[y.position + 1]?.all isGap = true) segments

variable {p : Segment → Prop} {segments more : List Segment} {x : Segment}

theorem pending_concat : Pending (segments ++ [x]) ↔ Exposed segments x := by
  constructor
  · rintro ⟨before, y, heq, hexposed⟩
    obtain ⟨rfl, hxy⟩ := List.append_inj' heq rfl
    rwa [List.singleton_inj.1 hxy]
  · exact fun h => ⟨segments, x, rfl, h⟩

/-- One more segment matters if a number is last. -/
theorem followed_concat :
    Followed p (segments ++ [x]) ↔ Followed p segments ∨ Pending segments ∧ p x := by
  constructor
  · rintro ⟨before, y, z, after, heq, hexposed, hz⟩
    -- Either the new segment is the one behind the number, or both were there.
    rcases List.eq_nil_or_concat after with rfl | ⟨after, last, rfl⟩
    · have hsplit : segments ++ [x] = (before ++ [y]) ++ [z] := by simpa using heq
      obtain ⟨rfl, hxz⟩ := List.append_inj' hsplit rfl
      rw [List.singleton_inj.1 hxz]
      exact Or.inr ⟨pending_concat.2 hexposed, hz⟩
    · have hsplit : segments ++ [x] = (before ++ y :: z :: after) ++ [last] := by simpa using heq
      obtain ⟨rfl, -⟩ := List.append_inj' hsplit rfl
      exact Or.inl ⟨before, y, z, after, rfl, hexposed, hz⟩
  · rintro (⟨before, y, z, after, rfl, hexposed, hz⟩ | ⟨⟨before, y, rfl, hexposed⟩, hx⟩)
    · exact ⟨before, y, z, after ++ [x], by simp, hexposed, hz⟩
    · exact ⟨before, y, x, [], by simp, hexposed, hx⟩

/-- The first segment is the number, or no function and behind it there is
one. -/
theorem followed_cons {z : Segment} :
    Followed p (z :: segments)
      ↔ Exposed [] z ∧ (∃ y ∈ segments.head?, p y) ∨ z.kind ≠ .function ∧ Followed p segments := by
  constructor
  · rintro ⟨before, x, y, after, heq, hexposed, hy⟩
    cases before with
    | nil =>
        obtain ⟨rfl, rfl⟩ := List.cons.inj heq
        exact Or.inl ⟨hexposed, y, rfl, hy⟩
    | cons z' before =>
        obtain ⟨rfl, rfl⟩ := List.cons.inj heq
        obtain ⟨hkind, hnumber, hbefore⟩ := hexposed
        obtain ⟨hz, hbefore⟩ := List.forall_mem_cons.1 hbefore
        exact Or.inr ⟨hz, before, x, y, after, rfl, ⟨hkind, hnumber, hbefore⟩, hy⟩
  · rintro (⟨hexposed, y, hhead, hy⟩ | ⟨hz, before, x, y, after, rfl, hexposed, hy⟩)
    · obtain ⟨after, rfl⟩ := List.head?_eq_some_iff.1 hhead
      exact ⟨[], z, y, after, rfl, hexposed, hy⟩
    · obtain ⟨hkind, hnumber, hbefore⟩ := hexposed
      exact ⟨z :: before, x, y, after, rfl,
        ⟨hkind, hnumber, List.forall_mem_cons.2 ⟨hz, hbefore⟩⟩, hy⟩

/-- Whether a number is followed can be computed, going from the front. -/
instance (before : List Segment) (x : Segment) : Decidable (Exposed before x) :=
  inferInstanceAs (Decidable (_ ∧ _ ∧ _))

/-- The name of a function ends the search, as the number itself does. -/
instance Followed.decidable (p : Segment → Prop) [DecidablePred p] :
    (segments : List Segment) → Decidable (Followed p segments)
  | [] => isFalse (by rintro ⟨before, x, y, after, heq, -⟩; simp at heq)
  | _ :: segments =>
    have := Followed.decidable p segments
    decidable_of_iff _ followed_cons.symm

/-- Literals are told by their kind. -/
instance (segments : List Segment) : Decidable (Juxtaposed segments) :=
  Followed.decidable _ segments

/-- Units are told by the registry and the characters around the operator. -/
instance (units : UnitRegistry) (source : List Char) (segments : List Segment) :
    Decidable (Detached units source segments) :=
  Followed.decidable _ segments

theorem Followed.extended (h : Followed p segments) (hbegins : segments <+: more) :
    Followed p more := by
  obtain ⟨before, x, y, after, rfl, hexposed, hy⟩ := h
  obtain ⟨rest, rfl⟩ := hbegins
  exact ⟨before, x, y, after ++ rest, by simp, hexposed, hy⟩

/-- Behind a function no number is exposed. -/
theorem Pending.unnamed (h : Pending segments) : ∀ z ∈ segments, z.kind ≠ .function := by
  obtain ⟨before, x, rfl, hliteral, -, hbefore⟩ := h
  exact List.forall_mem_append.2 ⟨hbefore, by simp [hliteral]⟩

/-- What is no literal is neither pending nor juxtaposed. -/
theorem apart_concat (hkind : x.kind ≠ .literal) (h : ¬ Juxtaposed segments) :
    ¬ Juxtaposed (segments ++ [x]) ∧ ¬ Pending (segments ++ [x]) := by
  refine ⟨fun hfollowed => ?_, fun hpending => hkind (pending_concat.1 hpending).1⟩
  rcases followed_concat.1 hfollowed with hbefore | ⟨-, hliteral⟩
  · exact h hbefore
  · exact hkind hliteral

end UnitCalc
