/-
Two listings of one expression.

`postorder` is the order of the building and `preorder` the order of the nodes.
The first has an instruction for every node and no other, so they list the same
up to the order (`Expr.postorder_perm`); what is asked of each node, how many
there are and how many arguments the calls have can be read off either.

# Why a permutation

The limits are stated about the nodes of a tree, and the reducer counts the
instructions it puts out. The two never meet in the same order: an operation
comes first among the nodes and last among the instructions. With a permutation
there is nothing to say about the order: counts are equal because lengths are
(`length_preorder`), and the calls are within a limit in one listing if they
are in the other (`callsWithin_iff`).

The permutation is proved by induction on the expression, together with that of
several expressions. The limits of `Proofs/Reduction/Limits` and of
`Proofs/Parsing/Limits` are brought to the listing by it.
-/
import UnitCalc.Proofs.Reduction.Simulation

namespace UnitCalc

/-- Whether no call among some instructions takes more arguments than a
limit admits. -/
def CountsWithin (limit : Int) (instructions : List Instruction) : Prop :=
  ∀ (name : String) (position count : Nat),
    .call name position count ∈ instructions → (count : Int) ≤ limit

namespace Expr

/-- The instruction of a node. -/
def instruction : Expr → Instruction
  | literal text position => .value text position
  | binary operator _ _ position => .operator operator.symbol position
  | call function arguments position => .call function.name position arguments.length

mutual

/-- The instructions of an expression are those of its nodes. -/
theorem postorder_perm (e : Expr) : e.postorder.Perm (e.preorder.map instruction) := by
  match e with
  | .literal _ _ => exact .refl _
  | .binary _ left right _ =>
      have hoperands := (postorder_perm left).append (postorder_perm right)
      rw [← List.map_append] at hoperands
      -- The operation itself moves from the end of the list to its front.
      exact (List.perm_append_singleton _ _).trans (hoperands.cons _)
  | .call _ arguments _ =>
      exact (List.perm_append_singleton _ _).trans ((postorderAll_perm arguments).cons _)

theorem postorderAll_perm (es : List Expr) :
    (postorderAll es).Perm ((preorderAll es).map instruction) := by
  match es with
  | [] => exact .refl _
  | e :: es =>
      have hall := (postorder_perm e).append (postorderAll_perm es)
      rwa [← List.map_append] at hall

end

theorem mem_preorder_self (e : Expr) : e ∈ e.preorder := by
  cases e <;> exact List.mem_cons_self

/-- An expression's own instruction is among those of any list it is in. -/
theorem instruction_mem_postorderAll {e : Expr} {es : List Expr} (h : e ∈ es) :
    e.instruction ∈ postorderAll es := by
  rw [(postorderAll_perm es).mem_iff]
  exact List.mem_map_of_mem (mem_preorderAll.2 ⟨e, h, mem_preorder_self e⟩)

theorem length_preorderAll (es : List Expr) : (preorderAll es).length = countAll es := by
  induction es using forestInduction with
  | nil => rfl
  | cons e es ihchildren ih =>
      rw [preorderAll, countAll, List.length_append, preorder_eq, List.length_cons, ihchildren,
        ih, count_eq]
      omega

/-- The nodes are counted by their listing. -/
theorem length_preorder (e : Expr) : e.preorder.length = e.count := by
  rw [preorder_eq, List.length_cons, length_preorderAll, count_eq, Nat.add_comm]

/-- The calls of an expression are within a limit if those of its listing
are. -/
theorem callsWithin_iff {limit : Int} {e : Expr} :
    e.CallsWithin limit ↔ CountsWithin limit e.postorder := by
  constructor
  · intro h name position count hmem
    obtain ⟨node, hnode, hcall⟩ := List.mem_map.1 (e.postorder_perm.mem_iff.1 hmem)
    -- Only a call has the instruction of a call.
    cases node with
    | literal _ _ => cases hcall
    | binary _ _ _ _ => cases hcall
    | call function arguments place =>
        obtain ⟨-, -, rfl⟩ := Instruction.call.inj hcall
        exact h function arguments place hnode
  · intro h function arguments position hmem
    exact h function.name position arguments.length
      (e.postorder_perm.mem_iff.2 (List.mem_map_of_mem hmem))

end Expr

end UnitCalc
