/-
Trees and their postorder listings.

Carrying out the listing of a tree puts the tree on the stack and does nothing
else, whatever was on the stack and whatever instructions follow
(`Expr.build_postorder`), provided the tree's operators and functions are those
that the table has under their symbols (`Expr.Over`). So over one table a
listing belongs to one tree. Conversely, what is built of a list of instructions
is a tree over the table that lists them (`Tree.postorder_of_ofInstructions`).

# From trees to instructions

The induction is on the tree. What is below on the stack and what comes behind
are arbitrary, since the operands of an operation are built with other things
below and behind than the operation itself. A call takes as many expressions as
its instruction says, which are its arguments in reverse.

# And back

The invariant of the building is that the stack, listed from the bottom up, is
what was there before and then the instructions so far. One instruction keeps it
(`buildStep_ok`), and so do all of them, by induction on the list. At the end
one expression is left, and the list is its listing.

`Proofs/Parsing/Inverse` uses both directions, `Proofs/Parsing/Complete` the first
and `Proofs/Parsing/Places` the second.
-/
import UnitCalc.Expr.Build
import UnitCalc.Proofs.Error.Answers

namespace UnitCalc

namespace Expr

variable {t : SymbolTable} {source : String}

mutual

/-- Whether every operator and function of an expression is the one a table
has under its symbol. -/
def Over (t : SymbolTable) : Expr → Prop
  | literal _ _ => True
  | binary operator left right _ =>
    t.operators.get? operator.symbol = some operator ∧ Over t left ∧ Over t right
  | call function arguments _ =>
    t.functions.get? function.name = some function ∧ OverAll t arguments

/-- The same of several expressions. -/
def OverAll (t : SymbolTable) : List Expr → Prop
  | [] => True
  | e :: es => Over t e ∧ OverAll t es

end

/-- An instruction that is carried out is the beginning of the building. -/
theorem build_cons {stack stack' : List Expr} {instruction : Instruction}
    {more : List Instruction} (h : buildStep t source stack instruction = .ok stack') :
    build t source stack (instruction :: more) = build t source stack' more := by
  rw [build, h]
  rfl

mutual

/-- The listing of an expression puts the expression on the stack. -/
theorem build_postorder (e : Expr) (he : e.Over t) (stack : List Expr)
    (more : List Instruction) :
    build t source stack (e.postorder ++ more) = build t source (e :: stack) more := by
  match e with
  | .literal text position => exact build_cons rfl
  | .binary operator left right position =>
      obtain ⟨hknown, hleft, hright⟩ := he
      -- When the operator comes, its operands are the two topmost, the right one above.
      have hstep : buildStep t source (right :: left :: stack) (.operator operator.symbol position)
          = .ok (binary operator left right position :: stack) := by
        simp only [buildStep, Registry.require, hknown, bind, Except.bind, pure, Except.pure]
      rw [postorder, List.append_assoc, List.append_assoc, build_postorder left hleft,
        build_postorder right hright, List.singleton_append, build_cons hstep]
  | .call function arguments position =>
      obtain ⟨hknown, harguments⟩ := he
      have hstep : buildStep t source (arguments.reverse ++ stack)
          (.call function.name position arguments.length)
          = .ok (call function arguments position :: stack) := by
        -- The arguments lie above everything else, the last one topmost.
        have htake : (arguments.reverse ++ stack).take arguments.length = arguments.reverse :=
          List.take_left' List.length_reverse
        have hdrop : (arguments.reverse ++ stack).drop arguments.length = stack :=
          List.drop_left' List.length_reverse
        have hlength : ¬ (arguments.reverse ++ stack).length < arguments.length := by
          rw [List.length_append, List.length_reverse]
          omega
        simp only [buildStep, hlength, ↓reduceIte, Registry.require, hknown, htake, hdrop,
          List.reverse_reverse, bind, Except.bind, pure, Except.pure]
      rw [postorder, List.append_assoc, build_postorderAll arguments harguments,
        List.singleton_append, build_cons hstep]

/-- The listings of several expressions put them on the stack in turn. -/
theorem build_postorderAll (es : List Expr) (hes : OverAll t es) (stack : List Expr)
    (more : List Instruction) :
    build t source stack (postorderAll es ++ more)
      = build t source (es.reverse ++ stack) more := by
  match es with
  | [] => rfl
  | e :: es =>
      obtain ⟨he, hes⟩ := hes
      rw [postorderAll, List.append_assoc, build_postorder e he, build_postorderAll es hes,
        List.reverse_cons, List.append_assoc, List.singleton_append]

end

/-- An expression is built from its listing. -/
theorem build_postorder_eq {e : Expr} (he : e.Over t) :
    build t source [] e.postorder = .ok [e] := by
  have h : build t source [] (e.postorder ++ []) = build t source [e] [] :=
    build_postorder e he [] []
  rwa [List.append_nil] at h

/-- Over one table, expressions with the same listing are the same. -/
theorem postorder_injective {e e' : Expr} (he : e.Over t) (he' : e'.Over t)
    (h : e.postorder = e'.postorder) : e = e' := by
  have hbuilt : build t "" [] e.postorder = .ok [e] := build_postorder_eq he
  have hbuilt' : build t "" [] e'.postorder = .ok [e'] := build_postorder_eq he'
  rw [h, hbuilt'] at hbuilt
  simpa using hbuilt.symm

-- ====================================================== listings of the built

theorem postorderAll_append (es es' : List Expr) :
    postorderAll (es ++ es') = postorderAll es ++ postorderAll es' := by
  induction es with
  | nil => rfl
  | cons e es ih => rw [List.cons_append, postorderAll, ih, postorderAll, List.append_assoc]

/-- A stack lists its expressions from the bottom up. -/
theorem postorderAll_reverse_cons (e : Expr) (stack : List Expr) :
    postorderAll (e :: stack).reverse = postorderAll stack.reverse ++ e.postorder := by
  rw [List.reverse_cons, postorderAll_append, postorderAll, postorderAll, List.append_nil]

theorem overAll_of_forall {es : List Expr} (h : ∀ e ∈ es, e.Over t) : OverAll t es := by
  induction es with
  | nil => exact trivial
  | cons e es ih =>
      exact ⟨h e List.mem_cons_self, ih fun e' he' => h e' (List.mem_cons_of_mem e he')⟩

theorem OverAll.of_mem {es : List Expr} (h : OverAll t es) {e : Expr}
    (he : e ∈ es) : e.Over t := by
  induction es with
  | nil => cases he
  | cons e' es ih =>
      obtain ⟨hfirst, hothers⟩ := h
      rcases List.mem_cons.1 he with rfl | he
      · exact hfirst
      · exact ih hothers he

/-- An instruction that is carried out is listed last by what is on the stack
then. -/
theorem buildStep_ok {stack stack' : List Expr} {i : Instruction}
    (h : buildStep t source stack i = .ok stack') (hover : ∀ e ∈ stack, e.Over t) :
    postorderAll stack'.reverse = postorderAll stack.reverse ++ [i]
      ∧ ∀ e ∈ stack', e.Over t := by
  cases i with
  | value text position =>
      cases h
      exact ⟨postorderAll_reverse_cons _ stack, List.forall_mem_cons.2 ⟨trivial, hover⟩⟩
  | operator symbol position =>
      match stack with
      | [] => cases h
      | [_] => cases h
      | right :: left :: below =>
          obtain ⟨hright, hleft, hbelow⟩ : right.Over t ∧ left.Over t ∧ ∀ e ∈ below, e.Over t := by
            simpa using hover
          obtain ⟨operator, hrequired, h⟩ := bind_eq_ok.1 h
          cases h
          have hknown := Registry.require_eq_ok.1 hrequired
          -- The table knows an operator under its own symbol only, so the node has the
          -- instruction that was carried out.
          obtain rfl : operator.symbol = symbol := Registry.key_of_get? hknown
          refine ⟨?_, List.forall_mem_cons.2 ⟨⟨hknown, hleft, hright⟩, hbelow⟩⟩
          rw [postorderAll_reverse_cons, postorderAll_reverse_cons, postorderAll_reverse_cons,
            postorder]
          simp only [List.append_assoc]
  | call name position count =>
      rw [buildStep] at h
      by_cases hcount : stack.length < count
      · rw [if_pos hcount] at h
        cases h
      · rw [if_neg hcount] at h
        obtain ⟨function, hrequired, h⟩ := bind_eq_ok.1 h
        cases h
        have hknown := Registry.require_eq_ok.1 hrequired
        obtain rfl : function.name = name := Registry.key_of_get? hknown
        have hlength : (stack.take count).reverse.length = count := by
          rw [List.length_reverse, List.length_take]
          omega
        constructor
        · -- What is taken from the stack and what is left there are listed as before, and then
          -- the call.
          rw [postorderAll_reverse_cons, postorder, hlength, ← List.append_assoc,
            ← postorderAll_append, ← List.reverse_append, List.take_append_drop]
        · refine List.forall_mem_cons.2 ⟨⟨hknown, overAll_of_forall fun e he => ?_⟩, ?_⟩
          · exact hover e (List.mem_of_mem_take (List.mem_reverse.1 he))
          · exact fun e he => hover e (List.mem_of_mem_drop he)

/-- What building leaves on the stack lists what was there, and then the
instructions. -/
theorem postorder_of_build {instructions : List Instruction} :
    ∀ {stack stack' : List Expr}, build t source stack instructions = .ok stack' →
      (∀ e ∈ stack, e.Over t) →
      postorderAll stack'.reverse = postorderAll stack.reverse ++ instructions
        ∧ ∀ e ∈ stack', e.Over t := by
  induction instructions with
  | nil =>
      intro stack stack' h hover
      cases h
      exact ⟨(List.append_nil _).symm, hover⟩
  | cons i more ih =>
      intro stack stack' h hover
      rw [build] at h
      obtain ⟨middle, hstep, h⟩ := bind_eq_ok.1 h
      obtain ⟨hmiddle, hoverMiddle⟩ := buildStep_ok hstep hover
      obtain ⟨hlisted, hoverAll⟩ := ih h hoverMiddle
      refine ⟨?_, hoverAll⟩
      rw [hlisted, hmiddle, List.append_assoc, List.singleton_append]

end Expr

/-- A tree that is built of instructions lists them, and its operators and
functions are the table's. -/
theorem Tree.postorder_of_ofInstructions {t : SymbolTable} {limits : Limits} {source : String}
    {instructions : List Instruction} {tree : Tree}
    (h : Tree.ofInstructions? t limits source instructions = .ok tree) :
    tree.child.postorder = instructions ∧ tree.child.Over t := by
  unfold ofInstructions? at h
  obtain ⟨stack, hbuild, h⟩ := bind_eq_ok.1 h
  obtain ⟨tree', htree, h⟩ := bind_eq_ok.1 h
  obtain ⟨_, -, h⟩ := bind_eq_ok.1 h
  obtain ⟨_, -, h⟩ := bind_eq_ok.1 h
  cases h
  obtain ⟨hlisted, hover⟩ := Expr.postorder_of_build hbuild (by simp)
  unfold ofStack? at htree
  split at htree
  · cases htree
  · next child hchild =>
      cases htree
      constructor
      · rw [hchild] at hlisted
        simpa [Expr.postorderAll] using hlisted
      · refine hover child ?_
        rw [← List.mem_reverse, hchild]
        exact List.mem_singleton_self child
  · cases htree

end UnitCalc
