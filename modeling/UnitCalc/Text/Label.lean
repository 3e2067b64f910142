/-
Labels in the order they are tried in: the longest first, and those of one
length by code point, so that a label is met before any other that begins
it (`sortLabels_longest`). `sortLabels` also drops repetitions; a label is
listed once however often it was declared (`mem_sortLabels`).

Words of a symbol table and units of a registry are both listed so.
-/
namespace UnitCalc.Text

/-- Whether the first label is tried before the second. -/
def labelBefore (a b : String) : Bool :=
  b.length < a.length || (a.length == b.length && decide (a < b))

/-- Puts a label in its place, unless it is there. -/
def insertLabel (a : String) : List String → List String
  | [] => [a]
  | b :: bs =>
    if a = b then b :: bs
    else if labelBefore a b then a :: b :: bs
    else b :: insertLabel a bs

/-- The distinct labels of a list, longest first. -/
def sortLabels (labels : List String) : List String :=
  labels.foldr insertLabel []

theorem mem_insertLabel {x a : String} {bs : List String} :
    x ∈ insertLabel a bs ↔ x = a ∨ x ∈ bs := by
  induction bs with
  | nil => simp [insertLabel]
  | cons b bs ih =>
    simp only [insertLabel]
    split
    · next h => subst h; simp
    · split
      · simp
      · simp only [List.mem_cons, ih]
        constructor
        · rintro (h | h | h) <;> simp [h]
        · rintro (h | h | h) <;> simp [h]

/-- Sorting keeps the labels it is given and adds none. -/
theorem mem_sortLabels {x : String} {labels : List String} :
    x ∈ sortLabels labels ↔ x ∈ labels := by
  induction labels with
  | nil => simp [sortLabels]
  | cons a labels ih =>
    rw [sortLabels, List.foldr_cons, mem_insertLabel, List.mem_cons]
    exact or_congr_right ih

/-- A label that is tried before another is at least as long. -/
theorem length_le_of_labelBefore {a b : String} (h : labelBefore a b = true) :
    b.length ≤ a.length := by
  simp only [labelBefore, Bool.or_eq_true, Bool.and_eq_true, decide_eq_true_eq, beq_iff_eq] at h
  omega

/-- A label that is not is at most as long. -/
theorem length_le_of_not_labelBefore {a b : String} (h : ¬ labelBefore a b = true) :
    a.length ≤ b.length := by
  simp only [labelBefore, Bool.or_eq_true, decide_eq_true_eq] at h
  omega

/-- The longest labels stay in front. -/
theorem insertLabel_longest (a : String) {bs : List String}
    (h : bs.Pairwise fun b c => c.length ≤ b.length) :
    (insertLabel a bs).Pairwise fun b c => c.length ≤ b.length := by
  induction h with
  | nil => exact List.pairwise_singleton _ _
  | @cons b bs hb hbs ih =>
    unfold insertLabel
    split
    · exact .cons hb hbs
    · split
      · next hbefore =>
        have hle := length_le_of_labelBefore hbefore
        exact .cons (List.forall_mem_cons.2 ⟨hle, fun c hc => Nat.le_trans (hb c hc) hle⟩)
          (.cons hb hbs)
      · next hbehind =>
        refine .cons (fun c hc => ?_) ih
        rcases mem_insertLabel.1 hc with rfl | hc
        · exact length_le_of_not_labelBefore hbehind
        · exact hb c hc

theorem sortLabels_longest (labels : List String) :
    (sortLabels labels).Pairwise fun b c => c.length ≤ b.length := by
  induction labels with
  | nil => exact .nil
  | cons a labels ih =>
    rw [sortLabels, List.foldr_cons]
    exact insertLabel_longest a ih

end UnitCalc.Text
