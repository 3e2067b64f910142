/-
Segments at other places.

Every list of segments is a list of numbered ones, no two of which share their
place, with each moved to where it belongs (`map_moved_numbered`). Stages that
do not look at places treat both lists alike, so a statement about which
segment went where needs to be shown only where the places tell the segments
apart: `Proofs/Reduction/Order` does so, and goes back with `placeOf`.
-/
import UnitCalc.Segment.Basic

namespace UnitCalc

namespace Segment

/-- The same segment at another place. -/
def moved (place : Nat → Nat) (x : Segment) : Segment :=
  { x with position := place x.position }

@[simp] theorem moved_kind (place : Nat → Nat) (x : Segment) : (x.moved place).kind = x.kind := rfl

@[simp] theorem moved_text (place : Nat → Nat) (x : Segment) : (x.moved place).text = x.text := rfl

@[simp] theorem moved_position (place : Nat → Nat) (x : Segment) :
    (x.moved place).position = place x.position := rfl

end Segment

/-- The same segments, placed one behind the other. -/
def numbered : Nat → List Segment → List Segment
  | _, [] => []
  | first, x :: s => { x with position := first } :: numbered (first + 1) s

/-- The place of each of some segments, by its number. -/
def placeOf (segments : List Segment) (i : Nat) : Nat :=
  (segments[i]?.map Segment.position).getD 0

theorem numbered_append (first : Nat) (l r : List Segment) :
    numbered first (l ++ r) = numbered first l ++ numbered (first + l.length) r := by
  induction l generalizing first with
  | nil => rfl
  | cons x l ih =>
      rw [List.cons_append, numbered, numbered, ih, List.cons_append, List.length_cons,
        Nat.add_assoc, Nat.add_comm 1]

/-- The numbers are consecutive. -/
theorem positions_numbered (first : Nat) (s : List Segment) :
    (numbered first s).map Segment.position = List.range' first s.length := by
  induction s generalizing first with
  | nil => rfl
  | cons x s ih => rw [numbered, List.map_cons, ih, List.length_cons, List.range'_succ]

/-- Where a segment stands, it is numbered. -/
theorem mem_numbered {first i : Nat} {s : List Segment} {x : Segment} (h : s[i]? = some x) :
    { x with position := first + i } ∈ numbered first s := by
  induction s generalizing first i with
  | nil => simp at h
  | cons y s ih =>
      cases i with
      | zero =>
          obtain rfl : y = x := by simpa using h
          exact List.mem_cons_self
      | succ i =>
          have hmem : { x with position := first + 1 + i } ∈ numbered (first + 1) s :=
            ih (by simpa using h)
          rw [Nat.add_right_comm, Nat.add_assoc] at hmem
          exact List.mem_cons_of_mem _ hmem

/-- The numbers of some segments are within their range. -/
theorem bounds_of_mem_numbered {first : Nat} {s : List Segment} {y : Segment}
    (h : y ∈ numbered first s) : first ≤ y.position ∧ y.position < first + s.length := by
  have hmem : y.position ∈ (numbered first s).map Segment.position := List.mem_map_of_mem h
  rw [positions_numbered, List.mem_range'_1] at hmem
  exact hmem

/-- A numbered segment is found by its number. -/
theorem getElem?_of_mem_numbered {s : List Segment} {y : Segment} :
    ∀ {first : Nat}, y ∈ numbered first s →
      first ≤ y.position ∧ ∃ x, s[y.position - first]? = some x
        ∧ y = { x with position := y.position } := by
  induction s with
  | nil =>
      intro first h
      cases h
  | cons x s ih =>
      intro first h
      rcases List.mem_cons.1 h with rfl | h
      · exact ⟨Nat.le_refl first, x, by simp, rfl⟩
      · obtain ⟨hfirst, x', hx', heq⟩ := ih h
        refine ⟨by omega, x', ?_, heq⟩
        -- The number is past the first one, so it is found one place further on.
        obtain ⟨n, hn⟩ : ∃ n, y.position - first = n + 1 := ⟨y.position - first - 1, by omega⟩
        rw [hn, List.getElem?_cons_succ, ← hx']
        congr 1
        omega

/-- Moved to where it belongs, a numbered segment is the one of its number. -/
theorem getElem?_position {segments : List Segment} {y : Segment} (h : y ∈ numbered 0 segments) :
    segments[y.position]? = some (y.moved (placeOf segments)) := by
  obtain ⟨-, x, hx, heq⟩ := getElem?_of_mem_numbered h
  rw [Nat.sub_zero] at hx
  rw [hx, heq]
  simp [Segment.moved, placeOf, hx]

theorem map_moved_numbered_from {place : Nat → Nat} {s : List Segment} :
    ∀ {first : Nat}, (∀ i x, s[i]? = some x → place (first + i) = x.position) →
      (numbered first s).map (Segment.moved place) = s := by
  induction s with
  | nil => simp [numbered]
  | cons x s ih =>
      intro first hplace
      have hhere : place first = x.position := hplace 0 x rfl
      have hrest : ∀ i y, s[i]? = some y → place (first + 1 + i) = y.position := by
        intro i y hy
        rw [← hplace (i + 1) y (by simpa using hy)]
        congr 1
        omega
      rw [numbered, List.map_cons, ih hrest]
      simp [Segment.moved, hhere]

/-- The segments themselves are the numbered ones, moved. -/
theorem map_moved_numbered (segments : List Segment) :
    (numbered 0 segments).map (Segment.moved (placeOf segments)) = segments := by
  refine map_moved_numbered_from fun i x hx => ?_
  simp [placeOf, hx]

end UnitCalc
