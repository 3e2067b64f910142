/-
What trimming leaves of a text.

A text is what is left of it with blanks on either side (`trim_parts`), and
what is left has a blank at neither end (`head_trim`, `getLast_trim`). Putting
texts together, what is trimmed off the whole is trimmed off the ends: blanks
put around a text go (`trim_between`), and past a character that is no blank
nothing does (`trim_append`).

# What it is for

A scan collects a literal one character at a time and trims it when it ends,
so what one more character does to the trimmed text is asked at every step: a
blank does nothing to it (`trim_snoc_blank`), another character brings back
the blanks before it (`trim_snoc`). Quantities are trimmed before and behind
their number. All of that rests on the lemmas here, so that the end of a text
is got at in one place.

The ends are treated apart, the start by `dropWhile` and the end by the
library's `rdropWhile`; `trim_eq` puts one behind the other.
-/
import Mathlib.Data.List.DropRight
import Mathlib.Data.List.TakeWhile
import UnitCalc.Text.Blank

namespace UnitCalc

open Text

variable {cs : List Char}

-- ================================================================= classes

/-- What is not of the class is not dropped. -/
theorem mem_dropWhile {p : Char → Bool} {c : Char} (hp : p c = false) (h : c ∈ cs) :
    c ∈ cs.dropWhile p := by
  rw [← List.takeWhile_append_dropWhile (p := p) (l := cs), List.mem_append] at h
  refine h.resolve_left fun htaken => ?_
  rw [List.mem_takeWhile_imp htaken] at hp
  cases hp

theorem mem_trimBy {p : Char → Bool} {c : Char} (hp : p c = false) (h : c ∈ cs) :
    c ∈ trimBy p cs :=
  List.mem_reverse.2 (mem_dropWhile hp (List.mem_reverse.2 (mem_dropWhile hp h)))

/-- Only the classes of its own characters matter to a text. -/
theorem dropWhile_congr {p q : Char → Bool} (h : ∀ c ∈ cs, p c = q c) :
    cs.dropWhile p = cs.dropWhile q := by
  induction cs with
  | nil => rfl
  | cons c cs ih =>
      rw [List.forall_mem_cons] at h
      rw [List.dropWhile_cons, List.dropWhile_cons, h.1, ih h.2]

theorem trimBy_congr {p q : Char → Bool} (h : ∀ c ∈ cs, p c = q c) :
    trimBy p cs = trimBy q cs := by
  have hreverse : ∀ c ∈ (cs.dropWhile q).reverse, p c = q c := fun c hc =>
    h c ((List.dropWhile_suffix q).mem (List.mem_reverse.1 hc))
  unfold trimBy
  rw [dropWhile_congr h, dropWhile_congr hreverse]

-- ================================================================== blanks

theorem allBlank_cons (c : Char) (cs : List Char) :
    allBlank (c :: cs) = (isBlank c && allBlank cs) :=
  List.all_cons

theorem allBlank_singleton (c : Char) : allBlank [c] = isBlank c :=
  Bool.and_true (isBlank c)

theorem allBlank_append (cs ds : List Char) : allBlank (cs ++ ds) = (allBlank cs && allBlank ds) :=
  List.all_append

theorem allBlank_snoc (cs : List Char) (c : Char) :
    allBlank (cs ++ [c]) = (allBlank cs && isBlank c) := by
  rw [allBlank_append, allBlank_singleton]

theorem allBlank_reverse (cs : List Char) : allBlank cs.reverse = allBlank cs :=
  List.all_reverse

-- =============================================================== the start

theorem trimStart_eq_self {c : Char} (h : isBlank c = false) : trimStart (c :: cs) = c :: cs :=
  List.dropWhile_cons_of_neg (by simp [h])

/-- A text of blanks is trimmed away. -/
theorem trimStart_of_allBlank (h : allBlank cs = true) : trimStart cs = [] :=
  List.dropWhile_eq_nil_iff.2 (List.all_eq_true.1 h)

theorem trimStart_trimStart (cs : List Char) : trimStart (trimStart cs) = trimStart cs :=
  List.dropWhile_idempotent isBlank cs

/-- Blanks in front of a text are trimmed away. -/
theorem trimStart_leading {lead : List Char} (h : allBlank lead = true) (cs : List Char) :
    trimStart (lead ++ cs) = trimStart cs :=
  List.dropWhile_append_of_pos (List.all_eq_true.1 h)

/-- Past something that is not dropped nothing is. -/
theorem trimStart_append (h : allBlank cs = false) (ds : List Char) :
    trimStart (cs ++ ds) = trimStart cs ++ ds := by
  unfold trimStart
  rw [List.dropWhile_append, if_neg]
  rw [List.isEmpty_iff, List.dropWhile_eq_nil_iff, ← List.all_eq_true]
  unfold allBlank at h
  simp [h]

-- =============================================================== both ends

theorem trim_eq (cs : List Char) : trim cs = (trimStart cs).rdropWhile isBlank :=
  rfl

/-- A text without blanks is trimmed already. -/
theorem trim_eq_self (h : ∀ c ∈ cs, isBlank c = false) : trim cs = cs :=
  trimBy_eq_self h

theorem trim_prefix_trimStart (cs : List Char) : trim cs <+: trimStart cs :=
  List.rdropWhile_prefix isBlank (trimStart cs)

/-- Trimming cuts blanks off at both ends. -/
theorem trim_parts (cs : List Char) :
    ∃ lead trail, cs = lead ++ trim cs ++ trail ∧ (∀ c ∈ lead, isBlank c = true)
      ∧ (∀ c ∈ trail, isBlank c = true) ∧ lead.length = cs.length - (trimStart cs).length := by
  have hlead : cs.takeWhile isBlank ++ trimStart cs = cs := List.takeWhile_append_dropWhile
  have htrail : trim cs ++ (trimStart cs).rtakeWhile isBlank = trimStart cs :=
    List.rdropWhile_append_rtakeWhile
  refine ⟨cs.takeWhile isBlank, (trimStart cs).rtakeWhile isBlank, ?_, ?_, ?_, ?_⟩
  · rw [List.append_assoc, htrail, hlead]
  · exact fun c hc => List.mem_takeWhile_imp hc
  · exact fun c hc => List.mem_rtakeWhile_imp hc
  · have hlength := congrArg List.length hlead
    rw [List.length_append] at hlength
    omega

/-- What is left does not begin with a blank. -/
theorem head_trim {c : Char} (h : c ∈ (trim cs).head?) : isBlank c = false := by
  obtain ⟨more, hmore⟩ := List.head?_eq_some_iff.1 h
  obtain ⟨trail, htrail⟩ := trim_prefix_trimStart cs
  have hfirst := List.head?_dropWhile_not isBlank cs
  unfold trimStart at htrail
  rw [← htrail, hmore, List.cons_append, List.head?_cons] at hfirst
  simpa using hfirst

/-- What is left does not end with a blank. -/
theorem getLast_trim {c : Char} (h : c ∈ (trim cs).getLast?) : isBlank c = false := by
  unfold trim trimBy at h
  rw [List.getLast?_reverse] at h
  have hfirst := List.head?_dropWhile_not isBlank (cs.dropWhile isBlank).reverse
  rw [Option.mem_def.1 h] at hfirst
  simpa using hfirst

theorem trim_of_allBlank (h : allBlank cs = true) : trim cs = [] := by
  rw [trim_eq, trimStart_of_allBlank h, List.rdropWhile_nil]

/-- What is trimmed away altogether is blank. -/
theorem isBlank_of_trim_eq_nil (h : trim cs = []) : ∀ c ∈ cs, isBlank c = true := by
  obtain ⟨lead, trail, hparts, hlead, htrail, -⟩ := trim_parts cs
  rw [h, List.append_nil] at hparts
  rw [hparts]
  exact List.forall_mem_append.2 ⟨hlead, htrail⟩

theorem trim_ne_nil (h : allBlank cs = false) : trim cs ≠ [] := by
  intro hnil
  unfold allBlank at h
  rw [List.all_eq_true.2 (isBlank_of_trim_eq_nil hnil)] at h
  cases h

/-- The trimmed part of a text is collected with the blanks in front of it. -/
theorem trim_collected (h : trim cs ≠ []) :
    ∃ a c, a ++ [c] <+: cs ∧ trimStart (a ++ [c]) = trim cs
      ∧ a.length + 1 = cs.length - (trimStart cs).length + (trim cs).length := by
  obtain ⟨lead, trail, hparts, hlead, -, hlength⟩ := trim_parts cs
  obtain ⟨front, c, hlast⟩ : ∃ front c, trim cs = front ++ [c] :=
    ⟨_, _, (List.dropLast_concat_getLast h).symm⟩
  refine ⟨lead ++ front, c, ⟨trail, ?_⟩, ?_, ?_⟩
  · rw [List.append_assoc lead, ← hlast]
    exact hparts.symm
  · rw [List.append_assoc, ← hlast, trimStart_leading (List.all_eq_true.2 hlead)]
    obtain ⟨d, more, hfirst⟩ := List.exists_cons_of_ne_nil h
    rw [hfirst, trimStart_eq_self (head_trim (by rw [hfirst]; rfl))]
  · rw [← hlength, hlast, List.length_append, List.length_append]
    rfl

-- ============================================================ put together

/-- What is trimmed in front of something and behind something. -/
theorem trim_append {ds : List Char} (hcs : allBlank cs = false) (hds : allBlank ds = false) :
    trim (cs ++ ds) = trimStart cs ++ (trimStart ds.reverse).reverse := by
  have hstart := trimStart_append hcs ds
  have hend := trimStart_append (allBlank_reverse ds ▸ hds) (trimStart cs).reverse
  unfold trimStart at hstart hend
  unfold trim trimBy
  rw [hstart, List.reverse_append, hend, List.reverse_append, List.reverse_reverse]
  rfl

/-- Blanks around a text are trimmed away. -/
theorem trim_between {lead trail : List Char} (hlead : allBlank lead = true)
    (htrail : allBlank trail = true) (cs : List Char) : trim (lead ++ (cs ++ trail)) = trim cs := by
  rw [trim_eq, trimStart_leading hlead, ← trim_eq]
  -- What is between may be nothing but blanks, and then all of it goes.
  cases hblank : allBlank cs with
  | true =>
      rw [trim_of_allBlank hblank, trim_of_allBlank]
      rw [allBlank_append, hblank, htrail, Bool.and_self]
  | false =>
      have hstart := trimStart_append hblank trail
      unfold trimStart at hstart
      have htrail' : ∀ c ∈ trail.reverse, isBlank c = true :=
        fun c hc => List.all_eq_true.1 htrail c (List.mem_reverse.1 hc)
      unfold trim trimBy
      rw [hstart, List.reverse_append, List.dropWhile_append_of_pos htrail']

theorem trim_trim (cs : List Char) : trim (trim cs) = trim cs := by
  obtain ⟨lead, trail, hparts, hlead, htrail, -⟩ := trim_parts cs
  rw [List.append_assoc] at hparts
  have hbetween := trim_between (List.all_eq_true.2 hlead) (List.all_eq_true.2 htrail) (trim cs)
  rwa [← hparts, eq_comm] at hbetween

/-- A blank behind a text is no part of it. -/
theorem trim_snoc_blank {c : Char} (hc : isBlank c = true) (cs : List Char) :
    trim (cs ++ [c]) = trim cs := by
  exact trim_between (show allBlank [] = true from rfl) ((allBlank_singleton c).trans hc) cs

/-- A character that is not blank is the last one left. -/
theorem trim_snoc {c : Char} (hc : isBlank c = false) (h : allBlank cs = false) :
    trim (cs ++ [c]) = trimStart cs ++ [c] := by
  rw [trim_eq, trimStart_append h, List.rdropWhile_concat_neg isBlank _ c (by simp [hc])]

/-- Trimming leaves the more, and if the character is not blank, it leaves
more. -/
theorem length_trim_snoc (c : Char) (h : allBlank cs = false) :
    (trim cs).length + (if isBlank c then 0 else 1) ≤ (trim (cs ++ [c])).length := by
  cases hc : isBlank c with
  | true => simp [trim_snoc_blank hc]
  | false =>
      have hshorter := (trim_prefix_trimStart cs).length_le
      simpa [trim_snoc hc h] using hshorter

/-- A blank is left in a trimmed text if something stands on either side. -/
theorem mem_trim_iff {c : Char} (hc : isBlank c = true) : c ∈ trim cs ↔
    ∃ front behind, cs = front ++ c :: behind ∧ allBlank front = false
      ∧ allBlank behind = false := by
  constructor
  · intro hmem
    obtain ⟨lead, trail, hparts, -, -, -⟩ := trim_parts cs
    obtain ⟨a, b, hab⟩ := List.append_of_mem hmem
    -- If only blanks stood before it, the trimmed text would begin with one.
    have hfirst : allBlank a = false := by
      cases a with
      | nil =>
          have hhead : isBlank c = false := head_trim (show c ∈ (trim cs).head? by rw [hab]; rfl)
          rw [hc] at hhead
          cases hhead
      | cons d a =>
          have hhead : isBlank d = false := head_trim (show d ∈ (trim cs).head? by rw [hab]; rfl)
          simp [allBlank, hhead]
    -- And if only blanks stood behind it, it would end with one.
    have hlast : allBlank b = false := by
      rcases List.eq_nil_or_concat b with rfl | ⟨b, d, rfl⟩
      · have hend : isBlank c = false :=
          getLast_trim (show c ∈ (trim cs).getLast? by rw [hab]; simp)
        rw [hc] at hend
        cases hend
      · rw [List.concat_eq_append, ← List.cons_append, ← List.append_assoc] at hab
        have hend : isBlank d = false :=
          getLast_trim (show d ∈ (trim cs).getLast? by rw [hab, List.getLast?_concat]; rfl)
        simp [allBlank, hend]
    refine ⟨lead ++ a, b ++ trail, ?_, ?_, ?_⟩
    · rw [hab] at hparts
      rw [hparts]
      simp
    · rw [allBlank_append, hfirst, Bool.and_false]
    · rw [allBlank_append, hlast, Bool.false_and]
  · rintro ⟨front, behind, rfl, hfront, hbehind⟩
    have hmore : allBlank (c :: behind) = false := by
      rw [allBlank_cons, hbehind, Bool.and_false]
    rw [trim_append hfront hmore, List.reverse_cons,
      trimStart_append ((allBlank_reverse behind).trans hbehind)]
    simp

end UnitCalc
