/-
Places from the source to the tree.

A node is made of a segment and keeps its text and its place (`Expr.segment`);
the nodes of a tree are the segments that were carried there, each once, in
another order (`Tree.nodes_perm`). So what a cover says about segments is said
about nodes: no two of them have one place, and they are counted by the segments
and bounded by the characters.

# Reports

Whatever stage of parsing reports an error, it reports it at a segment, or at
the start when there is nothing to point to (`Segment.Place`). A stage knows its
own input only: the building reports at instructions
(`Tree.ofInstructions_faults`), the reduction at segments. Instructions have the
places of the segments they were made of, by the same permutation.

When several trees are left, the second one is reported. It has been built of
the instructions, so its place is that of one of them (`Expr.postorder_of_build`
says so of a whole stack).

`Proofs/Session/Places` goes on from trees to requests.
-/
import UnitCalc.Parsing
import UnitCalc.Proofs.Expr.Listing
import UnitCalc.Proofs.Expr.Rebuild
import UnitCalc.Proofs.Reduction.Places
import UnitCalc.Proofs.Scan.Cover
import UnitCalc.Proofs.Scan.Places

namespace UnitCalc

variable {t : SymbolTable} {units : UnitRegistry} {limits : Limits} {source : String}

/-- The places that are reported about a source: its start, and those of its
segments. -/
def Segment.Place (lexicon : Lexicon) (limits : Limits) (source : String) (p : Nat) : Prop :=
  p = 0 ∨ ∃ segments, Segment.ofSource? lexicon limits source = .ok segments
    ∧ ∃ x ∈ segments, x.position = p

-- ================================================================ the nodes

namespace Expr

/-- The segment that a node was made of. -/
def segment (e : Expr) : Segment :=
  e.instruction.segment

theorem segment_text (e : Expr) : e.segment.text = (Node.inner e).label := by
  cases e <;> rfl

theorem segment_position (e : Expr) : e.segment.position = e.position := by
  cases e <;> rfl

end Expr

namespace Tree

variable {segments : List Segment} {tree : Tree}

/-- The nodes of a tree are the segments that were carried there. -/
theorem nodes_perm (h : Tree.ofSegments? t limits source segments = .ok tree) :
    (tree.child.preorder.map Expr.segment).Perm (segments.filter Segment.isCarried) := by
  obtain ⟨instructions, hreduced, hbuilt⟩ := bind_eq_ok.1 h
  obtain ⟨rfl, -⟩ := Tree.postorder_of_ofInstructions hbuilt
  have hends := Reduction.reduced ⟨t.operators, limits, source⟩ segments
  rw [hreduced] at hends
  cases hends with
  | taken _ _ _ hcarries =>
      have hlisted := tree.child.postorder_perm.map Instruction.segment
      rw [List.map_map] at hlisted
      exact hlisted.symm.trans hcarries

theorem segment_mem (h : Tree.ofSegments? t limits source segments = .ok tree) {e : Expr}
    (he : e ∈ tree.child.preorder) : e.segment ∈ segments :=
  (List.mem_filter.1 ((nodes_perm h).mem_iff.1 (List.mem_map_of_mem he))).1

/-- No two nodes have the same place. -/
theorem nodup_positions (h : Tree.ofSegments? t limits source segments = .ok tree)
    (hcovered : Covered source.toList segments) :
    (tree.child.preorder.map Expr.position).Nodup := by
  have hplaces : tree.child.preorder.map Expr.position
      = (tree.child.preorder.map Expr.segment).map Segment.position := by
    rw [List.map_map]
    exact List.map_congr_left fun e _ => e.segment_position.symm
  -- Covering segments stand one behind the other, so their places increase.
  have hsegments : (segments.map Segment.position).Nodup := by
    rw [List.Nodup, List.pairwise_map]
    exact hcovered.ordered.imp fun hbefore => Nat.ne_of_lt hbefore.1
  rw [hplaces, ((nodes_perm h).map _).nodup_iff]
  exact hsegments.sublist (List.filter_sublist.map _)

/-- There is the root and a node for every segment that is carried. -/
theorem count_eq (h : Tree.ofSegments? t limits source segments = .ok tree) :
    tree.count = 1 + segments.countP Segment.isCarried := by
  rw [count, ← Expr.length_preorder, List.countP_eq_length_filter, ← (nodes_perm h).length_eq,
    List.length_map]

/-- Besides the root there are no more nodes than characters. -/
theorem count_le (h : Tree.ofSegments? t limits source segments = .ok tree)
    (hcovered : Covered source.toList segments) : tree.count ≤ 1 + source.length := by
  have hcarried : segments.countP Segment.isCarried ≤ segments.length := List.countP_le_length
  have hlength : segments.length ≤ source.toList.length := hcovered.length_le
  rw [String.length_toList] at hlength
  rw [count_eq h]
  omega

end Tree

-- ============================================================= the building

namespace Expr

theorem require_faults {α : Type} [Keyed α String] (registry : Registry α) (symbol : String) :
    FaultsIn nowhere (registry.require symbol) := by
  unfold Registry.require
  split
  · exact .ok _
  · exact .error trivial

theorem buildStep_faults (stack : List Expr) (i : Instruction) :
    FaultsIn (· = i.segment.position) (buildStep t source stack i) := by
  cases i with
  | value text position => exact .ok _
  | operator symbol position =>
      match stack with
      | [] => exact .error (.at_place _ _ rfl)
      | [_] => exact .error (.at_place _ _ rfl)
      | _ :: _ :: _ => exact (require_faults _ symbol).of_nowhere.bind fun _ _ => .ok _
  | call name position count =>
      rw [buildStep]
      split
      · exact .error (.at_place _ _ rfl)
      · exact (require_faults _ name).of_nowhere.bind fun _ _ => .ok _

theorem build_faults (instructions : List Instruction) :
    ∀ stack, FaultsIn (fun p => ∃ i ∈ instructions, i.segment.position = p)
      (build t source stack instructions) := by
  induction instructions with
  | nil => exact fun stack => .ok stack
  | cons i more ih =>
      intro stack
      rw [build]
      refine FaultsIn.bind ?_ fun stack' _ => (ih stack').weaken ?_
      · refine (buildStep_faults stack i).weaken ?_
        rintro p rfl
        exact ⟨i, List.mem_cons_self, rfl⟩
      · rintro p ⟨j, hj, hp⟩
        exact ⟨j, List.mem_cons_of_mem i hj, hp⟩

end Expr

namespace Tree

theorem ofStack_faults (source : String) (stack : List Expr) :
    FaultsIn (fun p => p = 0 ∨ ∃ e ∈ stack, e.position = p) (ofStack? source stack) := by
  unfold ofStack?
  split
  · exact .error (.at_place _ _ (Or.inl rfl))
  · exact .ok _
  · next first second more hstack =>
      refine .error (.at_place _ _ (Or.inr ⟨second, ?_, rfl⟩))
      rw [← List.mem_reverse, hstack]
      exact List.mem_cons_of_mem first List.mem_cons_self

/-- What cannot be built is reported at an instruction, or at the start. -/
theorem ofInstructions_faults (instructions : List Instruction) :
    FaultsIn (fun p => p = 0 ∨ ∃ i ∈ instructions, i.segment.position = p)
      (Tree.ofInstructions? t limits source instructions) := by
  unfold ofInstructions?
  refine ((Expr.build_faults instructions []).weaken fun _ => Or.inr).bind fun stack hstack => ?_
  obtain ⟨hlisted, -⟩ := Expr.postorder_of_build hstack (by simp)
  refine ((ofStack_faults source stack).weaken ?_).bind fun tree _ => ?_
  · rintro p (rfl | ⟨e, he, rfl⟩)
    · exact Or.inl rfl
    · refine Or.inr ⟨e.instruction, ?_, e.segment_position⟩
      have hmem := Expr.instruction_mem_postorderAll (List.mem_reverse.2 he)
      rwa [hlisted] at hmem
  · exact (Limits.check_faults _ _ _).of_nowhere.bind fun _ _ =>
      (Limits.check_faults _ _ _).of_nowhere.bind fun _ _ => .ok _

-- ================================================================= parsing

theorem ofSegments_faults (segments : List Segment) :
    FaultsIn (fun p => p = 0 ∨ ∃ x ∈ segments, x.position = p)
      (Tree.ofSegments? t limits source segments) := by
  unfold ofSegments?
  refine ((Reduction.ofSegments_faults _ segments).weaken fun _ => Or.inr).bind
    fun instructions hinstructions => (ofInstructions_faults instructions).weaken ?_
  rintro p (rfl | ⟨i, hi, rfl⟩)
  · exact Or.inl rfl
  · have hends := Reduction.reduced ⟨t.operators, limits, source⟩ segments
    rw [hinstructions] at hends
    cases hends with
    | taken _ _ _ hcarries =>
        have hmem := hcarries.mem_iff.1 (List.mem_map_of_mem hi)
        exact Or.inr ⟨i.segment, (List.mem_filter.1 hmem).1, rfl⟩

/-- What cannot be parsed is reported at a segment of the source, or at the
start. -/
theorem ofSource_faults (ht : t.Unplaced) :
    FaultsIn (Segment.Place (.of t units) limits source)
      (Tree.ofSource? t units limits source) := by
  unfold ofSource?
  refine (Segment.ofSource_faults (.of t units) ht limits source).of_nowhere.bind
    fun segments hsegments => (ofSegments_faults segments).weaken ?_
  rintro p (rfl | hplace)
  · exact Or.inl rfl
  · exact Or.inr ⟨segments, hsegments, hplace⟩

end Tree

end UnitCalc
