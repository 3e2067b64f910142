/-
What can be told of a tree by its outline.

The line of a node says of what kind the node is, what it shows and, of a call,
how many arguments follow; all else are the lines of its children, one after the
other. So the lines are as many as the nodes, the deepest ones are as far in as
the tree is deep, and a tree can be read off its lines, whatever they look like
otherwise (`Node.outline_determines`).

# Where the lines of a child end

It is the counts that tell this, not the indentation. An outline may begin left
of the margin, where several levels are not indented at all, and a label may
itself begin with spaces and look like the line of another node (`misleading`).
What a line is read for is therefore no more than its kind, its label and the
number of children behind it (`Node.headline_inj`), and this can be read off
although labels have colons and digits in them: the first colon ends the kind,
the last one begins the count, and the label is what is between.

# The induction

The proofs go by several expressions in turn, and by any lines behind theirs:
the first expression is taken apart into its own line and its children
(`Expr.forestInduction`), and what is behind the children's lines are the lines
of the other expressions. The list of expressions to compare with has the same
length, since the count has been read before (`Expr.same_of_outlineLinesAll`).
-/
import Mathlib.Data.List.Forall2
import UnitCalc.Expr.Outline

namespace UnitCalc

-- ===================================================================== lines

/-- The lines of a text. -/
def textLines (text : String) : List (List Char) :=
  text.toList.splitOn '\n'

/-- How many spaces a line begins with. -/
def indentation (line : List Char) : Nat :=
  (line.takeWhile (· == ' ')).length

theorem toList_outlineLine (indent : Int) (label : String) :
    (outlineLine indent label).toList = List.replicate (2 * indent).toNat ' ' ++ label.toList := by
  rw [outlineLine, String.toList_append, String.toList_ofList]

/-- Lines that are put together come apart again. -/
theorem textLines_intercalate {lines : List String} (hne : lines ≠ [])
    (hlines : ∀ line ∈ lines, '\n' ∉ line.toList) :
    textLines (String.intercalate "\n" lines) = lines.map String.toList := by
  have hbreak : "\n".toList = ['\n'] := rfl
  rw [textLines, String.toList_intercalate, hbreak]
  refine List.splitOn_intercalate '\n' ?_ (by simpa using hne)
  intro letters hletters
  obtain ⟨line, hline, rfl⟩ := List.mem_map.1 hletters
  exact hlines line hline

-- ==================================================================== shapes

/-- Whether two expressions are the same node by node: their kinds, what they
show, and as many children that are the same. -/
inductive Expr.Same : Expr → Expr → Prop
  | intro {e e' : Expr} (kind : (Node.inner e).kindLabel = (Node.inner e').kindLabel)
      (label : (Node.inner e).label = (Node.inner e').label)
      (children : List.Forall₂ Same e.children e'.children) : Same e e'

/-- Whether two trees are the same node by node. -/
structure Node.Same (n n' : Node) : Prop where
  kind : n.kindLabel = n'.kindLabel
  label : n.label = n'.label
  children : List.Forall₂ Expr.Same n.children n'.children

/-- Whether nothing that a tree shows has a line break in it. -/
def Node.OneLined (n : Node) : Prop :=
  ∀ m ∈ n.preorder, '\n' ∉ m.label.toList

/-- The nodes of a tree are listed, so their labels can be looked through. -/
instance (n : Node) : Decidable n.OneLined :=
  inferInstanceAs (Decidable (∀ m ∈ n.preorder, '\n' ∉ m.label.toList))

namespace Expr

variable {e : Expr} {es es' : List Expr}

theorem outlineLines_eq (indent : Int) (e : Expr) :
    e.outlineLines indent
      = outlineLine indent e.headline :: outlineLinesAll (indent + 1) e.children := by
  cases e <;> simp [outlineLines, children, outlineLinesAll]

end Expr

-- ================================================================= headlines

namespace Node

/-- The line of a node itself. -/
def headline : Node → String
  | root t => "Root: " ++ t.source
  | inner e => e.headline

/-- What stands behind the label of a node: of a call, its arguments are
counted. -/
def counter : Node → String
  | inner (.call _ arguments _) => ":" ++ toString arguments.length
  | _ => ""

theorem headline_eq (n : Node) : n.headline = n.kindLabel ++ ": " ++ n.label ++ n.counter := by
  match n with
  | root _ => exact String.append_empty.symm
  | inner (.literal _ _) => exact String.append_empty.symm
  | inner (.binary _ _ _ _) => exact String.append_empty.symm
  | inner (.call function arguments _) =>
      show "FunctionCall: " ++ function.name ++ ":" ++ toString arguments.length
        = "FunctionCall" ++ ": " ++ function.name ++ (":" ++ toString arguments.length)
      rw [← String.append_assoc]
      rfl

theorem outlineLines_eq (indent : Int) (n : Node) :
    n.outlineLines indent
      = outlineLine indent n.headline :: Expr.outlineLinesAll (indent + 1) n.children := by
  cases n with
  | root t => simp [outlineLines, Tree.outlineLines, headline, children, Expr.outlineLinesAll]
  | inner e => exact e.outlineLines_eq indent

end Node

/-- What is in front of the first mark and what is behind it. -/
theorem append_mark_inj {α : Type} (mark : α) {front front' back back' : List α}
    (hfront : mark ∉ front) (hfront' : mark ∉ front')
    (h : front ++ mark :: back = front' ++ mark :: back') : front = front' ∧ back = back' := by
  rcases List.append_eq_append_iff.1 h with ⟨between, rfl, hrest⟩ | ⟨between, rfl, hrest⟩
  · rcases List.cons_eq_append_iff.1 hrest with ⟨rfl, hsame⟩ | ⟨between, rfl, -⟩
    · exact ⟨(List.append_nil front).symm, (List.cons.inj hsame).2.symm⟩
    · simp at hfront'
  · rcases List.cons_eq_append_iff.1 hrest with ⟨rfl, hsame⟩ | ⟨between, rfl, -⟩
    · exact ⟨List.append_nil front', (List.cons.inj hsame).2⟩
    · simp at hfront

/-- What is in front of the last mark and what is behind it. -/
theorem append_lastMark_inj {α : Type} (mark : α) {front front' back back' : List α}
    (hback : mark ∉ back) (hback' : mark ∉ back')
    (h : front ++ mark :: back = front' ++ mark :: back') : front = front' ∧ back = back' := by
  have hreversed := congrArg List.reverse h
  simp only [List.reverse_append, List.reverse_cons, List.append_assoc,
    List.singleton_append] at hreversed
  obtain ⟨hsame, hfront⟩ := append_mark_inj mark (by simpa using hback)
    (by simpa using hback') hreversed
  exact ⟨List.reverse_inj.1 hfront, List.reverse_inj.1 hsame⟩

/-- A number is written without any mark. -/
theorem notMem_toString {c : Char} (hc : c.isDigit = false) (n : Nat) :
    c ∉ (toString n).toList := by
  rw [Nat.toString_eq_repr, Nat.toList_repr]
  intro hmem
  have hdigit := Nat.isDigit_of_mem_toDigits (by decide) (by decide) hmem
  rw [hc] at hdigit
  cases hdigit

namespace Node

variable {n n' : Node}

/-- Only calls have their arguments counted. -/
theorem counter_eq (n : Node) :
    n.counter = if n.kindLabel = "FunctionCall" then ":" ++ toString n.children.length else "" := by
  match n with
  | root _ => rfl
  | inner (.literal _ _) => rfl
  | inner (.binary _ _ _ _) => rfl
  | inner (.call _ _ _) => rfl

/-- Of all others the kind says how many children there are. -/
theorem length_children (hkind : n.kindLabel = n'.kindLabel)
    (hcall : n.kindLabel ≠ "FunctionCall") : n.children.length = n'.children.length := by
  have hcount : ∀ m : Node, m.kindLabel ≠ "FunctionCall" → m.children.length
      = if m.kindLabel = "Literal" then 0 else if m.kindLabel = "BinaryOp" then 2 else 1 := by
    intro m hm
    match m with
    | root _ => rfl
    | inner (.literal _ _) => rfl
    | inner (.binary _ _ _ _) => rfl
    | inner (.call _ _ _) => exact absurd rfl hm
  rw [hcount n hcall, hcount n' (hkind ▸ hcall), hkind]

/-- Kinds are named in letters. -/
theorem notMem_kindLabel {c : Char} (hc : c.isAlpha = false) (n : Node) :
    c ∉ n.kindLabel.toList := by
  have hletters : ["Root", "Literal", "BinaryOp", "FunctionCall"].all
      (·.toList.all Char.isAlpha) = true := rfl
  have hlabel : n.kindLabel ∈ ["Root", "Literal", "BinaryOp", "FunctionCall"] := by
    match n with
    | root _ => exact .head _
    | inner (.literal _ _) => exact .tail _ (.head _)
    | inner (.binary _ _ _ _) => exact .tail _ (.tail _ (.head _))
    | inner (.call _ _ _) => exact .tail _ (.tail _ (.tail _ (.head _)))
  intro hmem
  rw [List.all_eq_true.1 (List.all_eq_true.1 hletters _ hlabel) c hmem] at hc
  cases hc

/-- A line says of what kind its node is, what it shows and how many children
it has, and nothing else. -/
theorem headline_inj (n n' : Node) :
    n.headline = n'.headline ↔ n.kindLabel = n'.kindLabel ∧ n.label = n'.label
      ∧ n.children.length = n'.children.length := by
  constructor
  · intro h
    have hletters := congrArg String.toList h
    simp only [headline_eq, String.toList_append, List.append_assoc] at hletters
    obtain ⟨hkind, hbehind⟩ := append_mark_inj ':' (notMem_kindLabel rfl n)
      (notMem_kindLabel rfl n') hletters
    have hkind := String.toList_inj.1 hkind
    have hbehind := (List.cons.inj hbehind).2
    -- Only a call has a counter behind its label; a label may end like one, so the last colon is
    -- the one that counts.
    by_cases hcall : n.kindLabel = "FunctionCall"
    · rw [counter_eq, counter_eq, if_pos hcall, if_pos (hkind ▸ hcall), String.toList_append,
        String.toList_append] at hbehind
      obtain ⟨hlabel, hcount⟩ := append_lastMark_inj ':' (notMem_toString rfl _)
        (notMem_toString rfl _) hbehind
      have hnumber := congrArg (Nat.ofDigitChars 10 · 0) hcount
      simp only [Nat.toString_eq_repr, Nat.toList_repr, Nat.ofDigitChars_ten_toDigits] at hnumber
      exact ⟨hkind, String.toList_inj.1 hlabel, hnumber⟩
    · rw [counter_eq, counter_eq, if_neg hcall, if_neg (hkind ▸ hcall)] at hbehind
      exact ⟨hkind, String.toList_inj.1 (List.append_cancel_right hbehind),
        length_children hkind hcall⟩
  · intro ⟨hkind, hlabel, hcount⟩
    rw [headline_eq, headline_eq, counter_eq, counter_eq, hkind, hlabel, hcount]

/-- A line begins with the kind of its node, and so with no space. -/
theorem indentation_headline (indent : Int) (n : Node) :
    indentation (outlineLine indent n.headline).toList = (2 * indent).toNat := by
  have hkind : n.headline.toList.takeWhile (· == ' ') = [] := by
    rw [headline_eq, String.append_assoc, String.append_assoc, String.toList_append]
    have hfirst := notMem_kindLabel (c := ' ') rfl n
    -- Kinds are not empty, but that they have no space in them is enough.
    match hletters : n.kindLabel.toList with
    | [] =>
        rw [List.nil_append, String.toList_append]
        rfl
    | first :: letters =>
        rw [hletters, List.mem_cons, not_or] at hfirst
        rw [List.cons_append, List.takeWhile_cons_of_neg (by simpa using Ne.symm hfirst.1)]
  rw [indentation, toList_outlineLine, List.takeWhile_append_of_pos (by simp), hkind,
    List.append_nil, List.length_replicate]

/-- Where a label has no line break, its line has none. -/
theorem headline_oneLined (indent : Int) (h : '\n' ∉ n.label.toList) :
    '\n' ∉ (outlineLine indent n.headline).toList := by
  have hcounter : '\n' ∉ n.counter.toList := by
    rw [counter_eq]
    split
    · rw [String.toList_append, List.mem_append, not_or]
      exact ⟨by decide, notMem_toString rfl _⟩
    · simp
  rw [toList_outlineLine, headline_eq]
  simp only [String.toList_append, List.mem_append, not_or]
  exact ⟨by simp, ⟨⟨notMem_kindLabel rfl n, by decide⟩, h⟩, hcounter⟩

end Node

-- =================================================================== outlines

namespace Expr

/-- There is a line for every node. -/
theorem length_outlineLinesAll (es : List Expr) :
    ∀ indent, (outlineLinesAll indent es).length = countAll es := by
  induction es using forestInduction with
  | nil => exact fun _ => rfl
  | cons e es ihchildren ih =>
      intro indent
      rw [outlineLinesAll, countAll, List.length_append, outlineLines_eq, List.length_cons,
        ihchildren, ih, count_eq]
      omega

/-- Where no label has a line break, no line has one. -/
theorem oneLined_outlineLinesAll (es : List Expr) :
    (∀ m ∈ preorderAll es, '\n' ∉ (Node.inner m).label.toList) →
      ∀ indent, ∀ line ∈ outlineLinesAll indent es, '\n' ∉ line.toList := by
  induction es using forestInduction with
  | nil => simp [outlineLinesAll]
  | cons e es ihchildren ih =>
      intro h indent line hline
      rw [preorderAll, preorder_eq] at h
      rw [outlineLinesAll, outlineLines_eq, List.cons_append, List.mem_cons,
        List.mem_append] at hline
      rcases hline with rfl | hline | hline
      · exact Node.headline_oneLined (n := .inner e) indent (h e (by simp))
      · exact ihchildren (fun m hm => h m (by simp [hm])) _ line hline
      · exact ih (fun m hm => h m (by simp [hm])) _ line hline

/-- No line is further in than the expressions are deep, and where there is any
one is. -/
theorem deepest_outlineLinesAll (es : List Expr) :
    ∀ indent, (∀ line ∈ outlineLinesAll indent es,
        indentation line.toList ≤ (2 * (indent + depthAll es - 1)).toNat)
      ∧ (es ≠ [] → ∃ line ∈ outlineLinesAll indent es,
        indentation line.toList = (2 * (indent + depthAll es - 1)).toNat) := by
  induction es using forestInduction with
  | nil => simp [outlineLinesAll]
  | cons e es ihchildren ih =>
      intro indent
      have hdepth : depthAll (e :: es) = max (1 + depthAll e.children) (depthAll es) := by
        rw [depthAll, depth_eq]
      have hfirst := Node.indentation_headline indent (.inner e)
      obtain ⟨hchildren, hchild⟩ := ihchildren (indent + 1)
      obtain ⟨hothers, hother⟩ := ih indent
      rw [outlineLinesAll, outlineLines_eq, List.cons_append]
      refine ⟨fun line hline => ?_, fun _ => ?_⟩
      · rw [List.mem_cons, List.mem_append] at hline
        rcases hline with rfl | hline | hline
        · change indentation (outlineLine indent (Node.inner e).headline).toList ≤ _
          omega
        · have hbound := hchildren line hline
          omega
        · have hbound := hothers line hline
          omega
      · -- The deepest line is among the deeper lines, or it is the first one.
        by_cases hdeeper : 1 + depthAll e.children < depthAll es
        · have hne : es ≠ [] := by
            intro hes
            simp [hes, depthAll] at hdeeper
          obtain ⟨line, hline, hin⟩ := hother hne
          exact ⟨line, by simp [hline], by omega⟩
        · by_cases hleaf : e.children = []
          · refine ⟨_, List.mem_cons_self, ?_⟩
            rw [hleaf, depthAll] at hdepth hdeeper
            change indentation (outlineLine indent (Node.inner e).headline).toList = _
            omega
          · obtain ⟨line, hline, hin⟩ := hchild hleaf
            exact ⟨line, by simp [hline], by omega⟩

/-- The lines of as many expressions tell them, and where they end. -/
theorem same_of_outlineLinesAll (es : List Expr) :
    ∀ {indent : Int} {es' : List Expr} {rest rest' : List String}, es.length = es'.length →
      outlineLinesAll indent es ++ rest = outlineLinesAll indent es' ++ rest' →
      List.Forall₂ Same es es' ∧ rest = rest' := by
  induction es using forestInduction with
  | nil =>
      intro indent es' rest rest' hlength h
      obtain rfl := List.length_eq_zero_iff.1 hlength.symm
      exact ⟨.nil, h⟩
  | cons e es ihchildren ih =>
      intro indent es' rest rest' hlength h
      obtain ⟨e', es', rfl⟩ := List.exists_cons_of_length_eq_add_one hlength.symm
      rw [outlineLinesAll, outlineLinesAll, outlineLines_eq, outlineLines_eq, List.cons_append,
        List.cons_append, List.cons_append, List.cons_append, List.append_assoc,
        List.append_assoc] at h
      obtain ⟨hfirst, hbehind⟩ := List.cons.inj h
      -- The first line gives the number of children, and so where their lines end.
      obtain ⟨hkind, hlabel, hcount⟩ := (Node.headline_inj (.inner e) (.inner e')).1
        ((String.append_right_inj _).1 hfirst)
      obtain ⟨hchildren, hothers⟩ := ihchildren hcount hbehind
      obtain ⟨hsame, hrest⟩ := ih (Nat.succ.inj hlength) hothers
      exact ⟨.cons ⟨hkind, hlabel, hchildren⟩ hsame, hrest⟩

/-- Expressions that are the same have the same lines. -/
theorem outlineLinesAll_congr (es : List Expr) :
    ∀ {es' : List Expr}, List.Forall₂ Same es es' →
      ∀ indent, outlineLinesAll indent es = outlineLinesAll indent es' := by
  induction es using forestInduction with
  | nil =>
      intro es' h indent
      cases h
      rfl
  | cons e es ihchildren ih =>
      intro es' h indent
      cases h with
      | @cons _ e' _ es' hsame hothers =>
          obtain ⟨hkind, hlabel, hchildren⟩ := hsame
          have hfirst : e.headline = e'.headline :=
            (Node.headline_inj (.inner e) (.inner e')).2
              ⟨hkind, hlabel, hchildren.length_eq⟩
          rw [outlineLinesAll, outlineLinesAll, outlineLines_eq, outlineLines_eq, hfirst,
            ihchildren hchildren, ih hothers]

end Expr

namespace Node

variable {n : Node}

/-- What the nodes below show is among what a tree shows. -/
theorem OneLined.children (h : n.OneLined) :
    '\n' ∉ n.label.toList
      ∧ ∀ m ∈ Expr.preorderAll n.children, '\n' ∉ (inner m).label.toList := by
  cases n with
  | root t =>
      refine ⟨h _ (by simp [preorder]), fun m hm => h _ ?_⟩
      simpa [preorder, children, Expr.preorderAll] using hm
  | inner e =>
      unfold OneLined at h
      rw [preorder, Expr.preorder_eq] at h
      refine ⟨h _ (by simp), fun m hm => h _ ?_⟩
      rw [List.map_cons]
      exact List.mem_cons_of_mem _ (List.mem_map_of_mem hm)

/-- The lines of an outline are those that were put together. -/
theorem textLines_outline (h : n.OneLined) (indent : Int) :
    textLines (n.outline indent) = (n.outlineLines indent).map String.toList := by
  obtain ⟨hlabel, hchildren⟩ := h.children
  rw [outline, outlineLines_eq]
  refine textLines_intercalate (by simp) fun line hline => ?_
  rcases List.mem_cons.1 hline with rfl | hline
  · exact headline_oneLined indent hlabel
  · exact Expr.oneLined_outlineLinesAll n.children hchildren (indent + 1) line hline

/-- The deepest line is as far in as the tree is deep. -/
theorem deepest_outlineLines (indent : Int) (n : Node) :
    ((n.outlineLines indent).map (indentation ·.toList)).max?
      = some (2 * (indent + n.depth - 1)).toNat := by
  obtain ⟨hbound, hdeepest⟩ := Expr.deepest_outlineLinesAll n.children (indent + 1)
  have hfirst := indentation_headline indent n
  have hdepth := n.depth_eq
  rw [List.max?_eq_some_iff, outlineLines_eq]
  constructor
  · rw [List.mem_map]
    by_cases hleaf : n.children = []
    · refine ⟨_, List.mem_cons_self, ?_⟩
      rw [hleaf, Expr.depthAll] at hdepth
      omega
    · obtain ⟨line, hline, hin⟩ := hdeepest hleaf
      exact ⟨line, List.mem_cons_of_mem _ hline, by omega⟩
  · intro inward hinward
    obtain ⟨line, hline, rfl⟩ := List.mem_map.1 hinward
    rcases List.mem_cons.1 hline with rfl | hline
    · omega
    · have hle := hbound line hline
      omega

/-- Trees have the same lines exactly if they are the same. -/
theorem outlineLines_inj {n' : Node} (indent : Int) :
    n.outlineLines indent = n'.outlineLines indent ↔ n.Same n' := by
  rw [outlineLines_eq, outlineLines_eq]
  constructor
  · intro h
    obtain ⟨hfirst, hbehind⟩ := List.cons.inj h
    obtain ⟨hkind, hlabel, hcount⟩ := (headline_inj n n').1 ((String.append_right_inj _).1 hfirst)
    have hrest : Expr.outlineLinesAll (indent + 1) n.children ++ []
        = Expr.outlineLinesAll (indent + 1) n'.children ++ [] := by
      rw [hbehind]
    exact ⟨hkind, hlabel, (Expr.same_of_outlineLinesAll n.children hcount hrest).1⟩
  · intro h
    rw [(headline_inj n n').2 ⟨h.kind, h.label, h.children.length_eq⟩,
      Expr.outlineLinesAll_congr n.children h.children]

/-- Wherever it begins, the outline of a tree without line breaks has a line for
every node, the deepest one is as far in as the tree is deep, and another tree
without line breaks has the same outline there exactly if it is the same node
by node. -/
theorem outline_determines (n : Node) (hn : n.OneLined) (indent : Int) :
    (textLines (n.outline indent)).length = n.count
      ∧ ((textLines (n.outline indent)).map indentation).max?
        = some (2 * (indent + n.depth - 1)).toNat
      ∧ ∀ n' : Node, n'.OneLined → (n.outline indent = n'.outline indent ↔ n.Same n') := by
  refine ⟨?_, ?_, fun n' hn' => ?_⟩
  · rw [textLines_outline hn, List.length_map, outlineLines_eq, List.length_cons,
      Expr.length_outlineLinesAll, count_eq, Nat.add_comm]
  · rw [textLines_outline hn, List.map_map]
    exact deepest_outlineLines indent n
  · rw [← outlineLines_inj indent]
    constructor
    · intro h
      -- No label breaks a line, so equal texts are equal lists of lines.
      have hlines := congrArg textLines h
      rw [textLines_outline hn, textLines_outline hn'] at hlines
      exact List.map_injective_iff.2 (fun _ _ hletters => String.toList_injective hletters) hlines
    · intro h
      rw [outline, outline, h]

/-- A call with a colon and a number in its name, and arguments that look like
other lines. -/
def misleading (position : Nat) : Node :=
  .inner (.call { name := "f:2", implementation := fun _ _ => pure (.text "") }
    [.literal "BinaryOp: +" position, .literal "  FunctionCall: f:2:2" position] position)

/-- It has three lines, and where it stands in a source does not show. -/
theorem outline_determines_misleading :
    (textLines ((misleading 0).outline 1)).length = 3
      ∧ ((textLines ((misleading 0).outline 1)).map indentation).max? = some 4
      ∧ (misleading 0).Same (misleading 7) := by
  obtain ⟨hlength, hdeepest, hsame⟩ := outline_determines (misleading 0) (by decide) 1
  exact ⟨hlength, hdeepest, (hsame (misleading 7) (by decide)).1 rfl⟩

end Node

end UnitCalc
