/-
Expressions at other places.

Moving an expression moves its listing (`Expr.postorder_moved`) and changes
nothing else: not the table it is over, nor any of its measures. So what is
built of moved instructions is the moved expression.

# What is moved, and where it is used

The place of every node goes through one function on positions, whatever it is.
Around a source in parentheses it is one place further
(`Proofs/Parsing/Parenthesized`); for comparisons without places it is zero
(`Proofs/Expr/Printed`).

# Measures

The count and the calls are read off the listing, where moving is a `List.map`,
so they need no induction of their own. The depth is not in the listing and is
followed through the expression.
-/
import UnitCalc.Proofs.Expr.Listing
import UnitCalc.Proofs.Expr.Rebuild
import UnitCalc.Proofs.Reduction.Relocation

namespace UnitCalc.Expr

mutual

/-- The same expression with its nodes at other places. -/
def moved (place : Nat → Nat) : Expr → Expr
  | literal text position => literal text (place position)
  | binary operator left right position =>
    binary operator (moved place left) (moved place right) (place position)
  | call function arguments position =>
    call function (movedAll place arguments) (place position)

/-- The same of several expressions. -/
def movedAll (place : Nat → Nat) : List Expr → List Expr
  | [] => []
  | e :: es => moved place e :: movedAll place es

end

variable {t : SymbolTable}

theorem length_movedAll (place : Nat → Nat) (es : List Expr) :
    (movedAll place es).length = es.length := by
  induction es with
  | nil => rfl
  | cons e es ih => rw [movedAll, List.length_cons, ih, List.length_cons]

mutual

/-- The listing is moved along. -/
theorem postorder_moved (place : Nat → Nat) (e : Expr) :
    (e.moved place).postorder = e.postorder.map (Instruction.moved place) := by
  match e with
  | .literal _ _ => rfl
  | .binary _ left right _ =>
      rw [moved, postorder, postorder_moved place left, postorder_moved place right, postorder,
        List.map_append, List.map_append]
      rfl
  | .call _ arguments _ =>
      rw [moved, postorder, postorderAll_movedAll place arguments, length_movedAll, postorder,
        List.map_append]
      rfl

theorem postorderAll_movedAll (place : Nat → Nat) (es : List Expr) :
    postorderAll (movedAll place es) = (postorderAll es).map (Instruction.moved place) := by
  match es with
  | [] => rfl
  | e :: es =>
      rw [movedAll, postorderAll, postorder_moved place e, postorderAll_movedAll place es,
        postorderAll, List.map_append]

end

mutual

/-- The operators and functions stay. -/
theorem Over.moved (place : Nat → Nat) {e : Expr} (h : e.Over t) : (e.moved place).Over t := by
  match e with
  | .literal _ _ => exact trivial
  | .binary _ left right _ =>
      obtain ⟨hknown, hleft, hright⟩ := h
      exact ⟨hknown, Over.moved place hleft, Over.moved place hright⟩
  | .call _ arguments _ =>
      obtain ⟨hknown, harguments⟩ := h
      exact ⟨hknown, OverAll.movedAll place harguments⟩

theorem OverAll.movedAll (place : Nat → Nat) {es : List Expr} (h : OverAll t es) :
    OverAll t (movedAll place es) := by
  match es with
  | [] => exact trivial
  | e :: es =>
      obtain ⟨hfirst, hothers⟩ := h
      exact ⟨Over.moved place hfirst, OverAll.movedAll place hothers⟩

end

-- ================================================================= measures

/-- The nodes are as many as the instructions. -/
theorem length_postorder (e : Expr) : e.postorder.length = e.count := by
  rw [e.postorder_perm.length_eq, List.length_map, length_preorder]

theorem count_moved (place : Nat → Nat) (e : Expr) : (e.moved place).count = e.count := by
  rw [← length_postorder, postorder_moved, List.length_map, length_postorder]

mutual

theorem depth_moved (place : Nat → Nat) (e : Expr) : (e.moved place).depth = e.depth := by
  match e with
  | .literal _ _ => rfl
  | .binary _ left right _ =>
      rw [moved, depth, depth_moved place left, depth_moved place right, depth]
  | .call _ arguments _ => rw [moved, depth, depthAll_movedAll place arguments, depth]

theorem depthAll_movedAll (place : Nat → Nat) (es : List Expr) :
    depthAll (movedAll place es) = depthAll es := by
  match es with
  | [] => rfl
  | e :: es =>
      rw [movedAll, depthAll, depth_moved place e, depthAll_movedAll place es, depthAll]

end

theorem callsWithin_moved (limit : Int) (place : Nat → Nat) (e : Expr) :
    (e.moved place).CallsWithin limit ↔ e.CallsWithin limit := by
  rw [callsWithin_iff, callsWithin_iff, postorder_moved]
  constructor
  · intro h name position count hmem
    exact h name (place position) count (List.mem_map_of_mem hmem)
  · -- A moved call has its name and count from the call that was moved, and nothing else is asked
    -- about.
    intro h name position count hmem
    obtain ⟨i, hi, hmoved⟩ := List.mem_map.1 hmem
    cases i with
    | value _ _ => cases hmoved
    | operator _ _ => cases hmoved
    | call name' position' count' =>
        obtain ⟨-, -, rfl⟩ := Instruction.call.inj hmoved
        exact h name' position' count' hi

end UnitCalc.Expr
