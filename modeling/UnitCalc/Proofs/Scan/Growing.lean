/-
What a run adds.

Segments are only ever appended, and a literal that has a character which is
not blank is ended as a segment sooner or later: nothing that comes behind
takes a character of it away. Both hold of every move, so they hold of every
run (`Scan.segments_prefix_of_run`, `Scan.literal_of_run`).

The invariant for the second (`Scan.Grows`) has two cases, because the literal
is in either of two places: it is still collected, behind just the segments
there were, or it is a segment behind them, whatever has come since. What is
kept about it is a lower bound of its length. More may be collected to it, and
to tell two scans of the same text apart a bound is enough
(`Proofs/Scan/InCall`). That segments stay is what takes a fact about all
segments of a source to any state on the way (`Proofs/Scan/Frames`,
`Proofs/Scan/Numeral`).
-/
import UnitCalc.Proofs.Quantity.Trailing
import UnitCalc.Proofs.Scan.Cover
import UnitCalc.Proofs.Scan.Passing

namespace UnitCalc

open Text

namespace Scan

variable {lexicon : Lexicon} {s scanned : Scan}

-- ========================================================== ended literals

/-- Where only blanks are collected nothing is ended. -/
theorem flush_segments_of_allBlank (h : allBlank s.buffer = true) :
    s.flush.segments = s.segments := by
  unfold flush
  simp only [trim_of_allBlank h]
  rfl

theorem segments_prefix_flush (s : Scan) : s.segments <+: s.flush.segments := by
  unfold flush
  simp only
  split
  · exact List.prefix_refl _
  · exact List.prefix_append _ _

theorem segments_prefix_apply (s : Scan) (symbols : SymbolTable) (c : Char) (tail : List Char)
    (move : Move) : s.segments <+: (s.apply symbols c tail move).segments := by
  cases move with
  | keep => exact List.prefix_refl _
  | skip => exact s.segments_prefix_flush
  | emit kind text => exact s.segments_prefix_flush.trans (List.prefix_append _ _)

-- =================================================================== runs

/-- No segment is taken back. -/
theorem segments_prefix_of_run (hrun : run lexicon s = .ok scanned) :
    s.segments <+: scanned.flush.segments := by
  obtain ⟨hkept, -⟩ := run_preserves (P := fun t => s.segments <+: t.segments)
    (fun t c tail move _ _ ht => ht.trans (t.segments_prefix_apply lexicon.symbols c tail move))
    rfl (List.prefix_refl _) hrun
  exact hkept.trans scanned.segments_prefix_flush

/-- A literal that is collected, or was behind certain segments, and is that
long at least. -/
inductive Grows (segments : List Segment) (length : Nat) (s : Scan) : Prop
  | collected (before : s.segments = segments) (collects : allBlank s.buffer = false)
      (long : length ≤ (trim s.buffer).length)
  | ended {x : Segment} {more : List Segment} (behind : s.segments = segments ++ x :: more)
      (literal : x.kind = .literal) (long : length ≤ x.text.length)

namespace Grows

variable {segments : List Segment} {length : Nat}

/-- At its end the literal is a segment. -/
theorem flush (h : Grows segments length s) :
    ∃ x more, s.flush.segments = segments ++ x :: more ∧ x.kind = .literal
      ∧ length ≤ x.text.length := by
  cases h with
  | collected hbefore hcollects hlong =>
      obtain ⟨start, hflush⟩ := flush_segments_of_trim rfl (trim_ne_nil hcollects)
      refine ⟨_, [], by rw [hflush, hbefore], rfl, ?_⟩
      rwa [String.length_ofList]
  | @ended x more hbehind hliteral hlong =>
      obtain ⟨more', hmore⟩ := s.segments_prefix_flush
      refine ⟨x, more ++ more', ?_, hliteral, hlong⟩
      rw [← hmore, hbehind, List.append_assoc, List.cons_append]

theorem apply (h : Grows segments length s) (symbols : SymbolTable) (c : Char) (tail : List Char)
    (move : Move) : Grows segments length (s.apply symbols c tail move) := by
  -- Any move but one that collects ends the literal, and the first case turns into the second.
  have hended : s.flush.segments <+: (s.apply symbols c tail move).segments →
      Grows segments length (s.apply symbols c tail move) := by
    rintro ⟨more', hmore⟩
    obtain ⟨x, more, hflush, hliteral, hlong⟩ := h.flush
    have hbehind : (s.apply symbols c tail move).segments = segments ++ x :: (more ++ more') := by
      rw [← hmore, hflush, List.append_assoc, List.cons_append]
    exact .ended hbehind hliteral hlong
  cases move with
  | skip => exact hended (List.prefix_refl _)
  | emit kind text => exact hended (List.prefix_append _ _)
  | keep =>
      cases h with
      | ended hbehind hliteral hlong => exact .ended hbehind hliteral hlong
      | collected hbefore hcollects hlong =>
          refine .collected hbefore ?_ (Nat.le_trans hlong ?_)
          · show allBlank (s.buffer ++ [c]) = false
            rw [allBlank_snoc, hcollects, Bool.false_and]
          · exact Nat.le_trans (Nat.le_add_right _ _) (length_trim_snoc c hcollects)

end Grows

/-- A literal that is collected becomes the next segment, and is no shorter
then. -/
theorem literal_of_run (hcollects : allBlank s.buffer = false)
    (hrun : run lexicon s = .ok scanned) :
    ∃ x more, scanned.flush.segments = s.segments ++ x :: more ∧ x.kind = .literal
      ∧ (trim s.buffer).length ≤ x.text.length := by
  obtain ⟨hgrows, -⟩ := run_preserves
    (P := fun t => Grows s.segments (trim s.buffer).length t)
    (fun _ c tail move _ _ ht => ht.apply lexicon.symbols c tail move)
    rfl (.collected rfl hcollects (Nat.le_refl _)) hrun
  exact hgrows.flush

end Scan

end UnitCalc
