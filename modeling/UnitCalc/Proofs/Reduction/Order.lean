/-
The order in which segments become instructions.

It is a list of indices (`Traces`): each literal, operator and function is
there once, the literals from left to right, and a call behind all that it
encloses and in front of all that follows it (`ofSegments_order`).

# Indices

That an index is meant and not the segment itself matters where two segments
are the same. The order is read off the reduction of the numbered segments, no
two of which are, and moved back (`Proofs/Reduction/Relocation`): the index of
an instruction is the position it has there (`tracedOrder`). Each part of
`Traces` then comes from what is known of the instructions of one list, that
they are a permutation of the segments, that the values keep their order, and
how the instructions of a call are placed (`Proofs/Reduction/Enclosed`).

# Counts

The count of a call is the number of leading operands inside it, and this does
not change by numbering. It is the number of arguments if all is in order
(`ofSegments_counts`), and not in general: two groups side by side are one
argument and count as two (`counts_juxtaposed`).
-/
import UnitCalc.Proofs.Reduction.Enclosed
import UnitCalc.Proofs.Reduction.Relocation

namespace UnitCalc

-- ============================================================ numbered calls

theorem Matched.numbered {s : List Segment} (h : Matched s) :
    ∀ first, Matched (numbered first s) := by
  induction h with
  | nil =>
      intro first
      exact .nil
  | plain hx _ ih =>
      intro first
      exact .plain hx (ih _)
  | group ho _ hc _ ihinner ih =>
      intro first
      rw [UnitCalc.numbered, numbered_append, UnitCalc.numbered]
      exact .group ho (ihinner _) hc (ih _)
  | call hf ho _ hc _ ihinner ih =>
      intro first
      rw [UnitCalc.numbered, UnitCalc.numbered, numbered_append, UnitCalc.numbered]
      exact .call hf ho (ihinner _) hc (ih _)

theorem CallIn.numbered {segments before inner : List Segment} {f : Segment}
    (h : CallIn segments before f inner) (hinner : Matched inner) :
    CallIn (numbered 0 segments) (numbered 0 before) { f with position := before.length }
      (numbered (before.length + 2) inner) := by
  cases h with
  | @intro _ _ after _ o c hf ho _ hc =>
      rw [numbered_append, UnitCalc.numbered, UnitCalc.numbered, numbered_append,
        UnitCalc.numbered, Nat.zero_add]
      exact .intro hf ho (hinner.numbered _).balanced hc

theorem begins_numbered (s : List Segment) :
    ∀ (fresh : Bool) (depth first : Nat),
      begins fresh (level depth (numbered first s)) = begins fresh (level depth s) := by
  induction s with
  | nil =>
      intro fresh depth first
      rfl
  | cons x s ih =>
      intro fresh depth first
      by_cases hdepth : depth = 0
      · cases hx : x.kind <;> simp [numbered, level, begins, hx, hdepth, ih]
      · cases hx : x.kind <;> simp [numbered, level, hx, hdepth, ih]

/-- Numbering does not change how many operands are leading. -/
theorem leadingCount_numbered (s : List Segment) (first : Nat) :
    leadingCount (numbered first s) = leadingCount s := by
  rw [leadingCount_eq_begins, leadingCount_eq_begins, begins_numbered]

-- ================================================================= the order

/-- Whether the segment of an index is a literal. -/
def LiteralAt (segments : List Segment) (i : Nat) : Prop :=
  ∃ x, segments[i]? = some x ∧ x.kind = .literal

/-- An order of indices in which instructions were made of segments. -/
structure Traces (segments : List Segment) (instructions : List Instruction)
    (order : List Nat) : Prop where
  /-- Each instruction was made of the segment of its index. -/
  made : order.map (segments[·]?) = instructions.map fun i => some i.segment
  /-- No segment is made into two instructions. -/
  once : order.Nodup
  /-- No segment is lost. -/
  all : ∀ (i : Nat) (x : Segment), segments[i]? = some x → x.isCarried = true → i ∈ order
  /-- Literals come in their order. -/
  literals : order.Pairwise fun i j => LiteralAt segments i → LiteralAt segments j → i < j
  /-- A call comes behind all that it encloses, and in front of all that
  follows it. -/
  calls : ∀ before f inner, CallIn segments before f inner →
    ∃ early late, order = early ++ before.length :: late
      ∧ (∀ (i : Nat) (x : Segment), before.length < i → i < before.length + 2 + inner.length →
        segments[i]? = some x → x.isCarried = true → i ∈ early)
      ∧ ∀ i ∈ early, i < before.length + 2 + inner.length

-- ========================================================= reading it off

/-- The indices of the segments that instructions on numbered ones were made
of. -/
def tracedOrder (traced : List Instruction) : List Nat :=
  traced.map fun i => i.segment.position

section

variable {grammar : Grammar} {segments : List Segment} {traced : List Instruction}
  (htraced : Instruction.ofSegments? grammar (numbered 0 segments) = .ok traced)

include htraced

theorem traced_perm :
    (traced.map Instruction.segment).Perm ((numbered 0 segments).filter Segment.isCarried) :=
  (ofSegments_carries htraced).2

theorem traced_mem {i : Instruction} (hi : i ∈ traced) : i.segment ∈ numbered 0 segments :=
  (List.mem_filter.1 ((traced_perm htraced).mem_iff.1 (List.mem_map_of_mem hi))).1

theorem traced_made :
    (tracedOrder traced).map (segments[·]?)
      = (traced.map (Instruction.moved (placeOf segments))).map fun i => some i.segment := by
  unfold tracedOrder
  rw [List.map_map, List.map_map]
  refine List.map_congr_left fun i hi => ?_
  simp only [Function.comp_apply]
  rw [getElem?_position (traced_mem htraced hi), Instruction.segment_moved]

theorem traced_once : (tracedOrder traced).Nodup := by
  have horder : tracedOrder traced = (traced.map Instruction.segment).map Segment.position := by
    unfold tracedOrder
    rw [List.map_map]
    rfl
  have hsublist : (((numbered 0 segments).filter Segment.isCarried).map Segment.position).Sublist
      (List.range' 0 segments.length) := by
    rw [← positions_numbered]
    exact List.filter_sublist.map _
  rw [horder]
  exact (((traced_perm htraced).map Segment.position).nodup_iff).2
    (hsublist.nodup List.nodup_range')

theorem traced_all {i : Nat} {x : Segment} (hx : segments[i]? = some x)
    (hcarried : x.isCarried = true) : i ∈ tracedOrder traced := by
  have hmem : { x with position := 0 + i } ∈ (numbered 0 segments).filter Segment.isCarried :=
    List.mem_filter.2 ⟨mem_numbered hx, hcarried⟩
  obtain ⟨made, hmade, hsegment⟩ := List.mem_map.1 ((traced_perm htraced).mem_iff.2 hmem)
  refine List.mem_map.2 ⟨made, hmade, ?_⟩
  rw [hsegment]
  exact Nat.zero_add i

theorem traced_literals :
    (tracedOrder traced).Pairwise fun i j =>
      LiteralAt segments i → LiteralAt segments j → i < j := by
  -- The literals stand in the list as they are numbered.
  have hnumbers : (numbered 0 segments).Pairwise fun y z => y.position < z.position := by
    rw [← List.pairwise_map, positions_numbered]
    exact List.pairwise_lt_range'
  have hvalues := hnumbers.filter (·.kind == .literal)
  rw [← ofSegments_values htraced, List.pairwise_filter, List.pairwise_map] at hvalues
  refine List.pairwise_map.2 (hvalues.imp_of_mem ?_)
  intro i j hi hj hlt hliteral hliteral'
  have hkind : ∀ {i : Instruction}, i ∈ traced → LiteralAt segments i.segment.position →
      i.segment.kind = .literal := by
    rintro i hi ⟨x, hx, hkind⟩
    rw [getElem?_position (traced_mem htraced hi)] at hx
    rw [← Option.some.inj hx] at hkind
    exact hkind
  exact hlt (by simp [hkind hi hliteral]) (by simp [hkind hj hliteral'])

theorem traced_call {before inner : List Segment} {f : Segment}
    (hcall : CallIn segments before f inner) (hinner : Matched inner) :
    ∃ early late, traced = early ++ .call f.text before.length (leadingCount inner) :: late
      ∧ (∀ (i : Nat) (x : Segment), before.length < i → i < before.length + 2 + inner.length →
        segments[i]? = some x → x.isCarried = true → i ∈ tracedOrder early)
      ∧ ∀ i ∈ tracedOrder early, i < before.length + 2 + inner.length := by
  obtain ⟨early, body, late, waiting, rfl, hearly, hbody⟩ :=
    ofSegments_call htraced (hcall.numbered hinner)
  rw [leadingCount_numbered]
  refine ⟨early ++ body, late, by rw [List.append_assoc], ?_, ?_⟩
  · intro i x hlow hhigh hx hcarried
    have hinside : ∃ k, i = before.length + 2 + k ∧ inner[k]? = some x := by
      cases hcall with
      | @intro _ _ after _ o c _ ho _ _ =>
          rw [List.getElem?_append_right (Nat.le_of_lt hlow)] at hx
          obtain ⟨k, rfl⟩ := Nat.exists_eq_add_of_lt hlow
          have hindex : before.length + k + 1 - before.length = k + 1 := by omega
          rw [hindex, List.getElem?_cons_succ] at hx
          cases k with
          | zero =>
              -- Right behind the function stands its parenthesis.
              obtain rfl : o = x := by simpa using hx
              simp [Segment.isCarried, ho] at hcarried
          | succ k =>
              rw [List.getElem?_cons_succ, List.getElem?_append_left (by omega)] at hx
              exact ⟨k, by omega, hx⟩
    obtain ⟨k, rfl, hk⟩ := hinside
    have hmem : { x with position := before.length + 2 + k }
        ∈ (numbered (before.length + 2) inner).filter Segment.isCarried :=
      List.mem_filter.2 ⟨mem_numbered hk, hcarried⟩
    obtain ⟨made, hmade, hsegment⟩ := List.mem_map.1 (hbody.mem_iff.2 hmem)
    refine List.mem_map.2 ⟨made, List.mem_append_right early hmade, ?_⟩
    rw [hsegment]
  · intro i hi
    obtain ⟨made, hmade, rfl⟩ := List.mem_map.1 hi
    rcases List.mem_append.1 hmade with hmade | hmade
    · have hmem := hearly.mem_iff.1 (List.mem_append_left waiting (List.mem_map_of_mem hmade))
      have hbounds := bounds_of_mem_numbered (List.mem_filter.1 hmem).1
      omega
    · have hmem := hbody.mem_iff.1 (List.mem_map_of_mem hmade)
      exact (bounds_of_mem_numbered (List.mem_filter.1 hmem).1).2

end

/-- The order in which a list that is reduced becomes instructions, and what
each call says of its arguments. -/
theorem ofSegments_traces {grammar : Grammar} {segments : List Segment}
    {instructions : List Instruction}
    (h : Instruction.ofSegments? grammar segments = .ok instructions) :
    ∃ order, Traces segments instructions order
      ∧ ∀ before f inner, CallIn segments before f inner → ∀ k : Nat,
        order[k]? = some before.length →
        instructions[k]? = some (.call f.text f.position (leadingCount inner)) := by
  obtain ⟨traced, htraced, rfl⟩ := Instruction.ofSegments_numbered h
  have hcalled : Called segments := (ofSegments_carries h).1.called
  have honce := traced_once htraced
  refine ⟨tracedOrder traced, ⟨traced_made htraced, honce, ?_, traced_literals htraced, ?_⟩, ?_⟩
  · intro i x hx hcarried
    exact traced_all htraced hx hcarried
  · intro before f inner hcall
    obtain ⟨early, late, rfl, hinside, hbound⟩ :=
      traced_call htraced hcall (hcall.matched hcalled)
    refine ⟨tracedOrder early, tracedOrder late, ?_, hinside, hbound⟩
    simp [tracedOrder, Instruction.segment]
  · intro before f inner hcall k hk
    obtain ⟨early, late, rfl, -, -⟩ := traced_call htraced hcall (hcall.matched hcalled)
    have hplace : (tracedOrder (early ++ .call f.text before.length (leadingCount inner)
        :: late))[early.length]? = some before.length := by
      simp [tracedOrder, Instruction.segment]
    -- An index is in the order once, so the instruction at its place is the one of the call.
    have hindex : early.length = k := by
      refine (List.getElem?_inj ?_ honce).1 (hplace.trans hk.symm)
      simp [tracedOrder]
    rw [← hindex]
    simp [Instruction.moved, placeOf, hcall.getElem?_length]

/-- A reduction neither loses nor doubles: what is reduced is made into
instructions one by one, the literals in their order, a call behind all that
it encloses and in front of all that follows. -/
theorem ofSegments_order {grammar : Grammar} {segments : List Segment}
    {instructions : List Instruction}
    (h : Instruction.ofSegments? grammar segments = .ok instructions) :
    ∃ order, Traces segments instructions order := by
  obtain ⟨order, htraces, -⟩ := ofSegments_traces h
  exact ⟨order, htraces⟩

/-- The segments of `1 + max(2, 3)`. -/
def summedSegments : List Segment :=
  [⟨.literal, "1", 0⟩, ⟨.operator, "+", 2⟩, ⟨.function, "max", 4⟩, ⟨.leftParen, "(", 7⟩,
   ⟨.literal, "2", 8⟩, ⟨.comma, ",", 9⟩, ⟨.literal, "3", 11⟩, ⟨.rightParen, ")", 12⟩]

/-- The instructions of `1 + max(2, 3)`. -/
def summedInstructions : List Instruction :=
  [.value "1" 0, .value "2" 8, .value "3" 11, .call "max" 4 2, .operator "+" 2]

/-- The call stands behind its arguments, the operator behind the call. -/
theorem ofSegments_order_summed :
    Instruction.ofSegments? (SymbolTable.standard.grammar .standard "1 + max(2, 3)") summedSegments
        = .ok summedInstructions
      ∧ ∃ order, Traces summedSegments summedInstructions order :=
  have hreduced : Instruction.ofSegments?
      (SymbolTable.standard.grammar .standard "1 + max(2, 3)") summedSegments
        = .ok summedInstructions := rfl
  ⟨hreduced, ofSegments_order hreduced⟩

-- ================================================================== counting

/-- What a call says of its arguments: how many operands are leading. It is the
number of arguments if all is in order. -/
theorem ofSegments_counts {grammar : Grammar} {segments : List Segment}
    {instructions : List Instruction}
    (h : Instruction.ofSegments? grammar segments = .ok instructions) :
    ∃ order, Traces segments instructions order
      ∧ ∀ before f inner, CallIn segments before f inner →
        (∀ k : Nat, order[k]? = some before.length →
          instructions[k]? = some (.call f.text f.position (leadingCount inner)))
        ∧ (InOrder segments → leadingCount inner = argumentCount inner) := by
  obtain ⟨order, htraces, hcounts⟩ := ofSegments_traces h
  refine ⟨order, htraces, fun before f inner hcall => ⟨hcounts before f inner hcall, ?_⟩⟩
  intro horder
  have hinner := hcall.matched (ofSegments_carries h).1.called
  exact leadingCount_of_inOrder (horder.inside hcall hinner) hinner

/-- What the call of `1 + max(2, 3)` encloses. -/
def summedArguments : List Segment :=
  [⟨.literal, "2", 8⟩, ⟨.comma, ",", 9⟩, ⟨.literal, "3", 11⟩]

/-- The two arguments of `1 + max(2, 3)`, whose segments are in order, are
counted. -/
theorem ofSegments_counts_summed :
    argumentCount summedArguments = 2
      ∧ ∃ order, Traces summedSegments summedInstructions order
        ∧ ∀ k : Nat, order[k]? = some 2 →
          summedInstructions[k]? = some (.call "max" 4 (argumentCount summedArguments)) := by
  have hreduced : Instruction.ofSegments?
      (SymbolTable.standard.grammar .standard "1 + max(2, 3)") summedSegments
        = .ok summedInstructions := rfl
  have hmatched : Matched summedArguments :=
    .plain (Or.inl rfl) (.plain (Or.inr (Or.inr rfl)) (.plain (Or.inl rfl) .nil))
  have hcall : CallIn ([⟨.literal, "1", 0⟩, ⟨.operator, "+", 2⟩] ++ ⟨.function, "max", 4⟩
      :: ⟨.leftParen, "(", 7⟩ :: (summedArguments ++ [⟨.rightParen, ")", 12⟩]))
      [⟨.literal, "1", 0⟩, ⟨.operator, "+", 2⟩] ⟨.function, "max", 4⟩ summedArguments :=
    .intro rfl rfl hmatched.balanced rfl
  obtain ⟨order, htraces, hcounts⟩ := ofSegments_counts hreduced
  obtain ⟨hcount, hequal⟩ := hcounts _ _ _ hcall
  rw [hequal (by decide)] at hcount
  exact ⟨rfl, order, htraces, hcount⟩

/-- The segments of `max((1) (2))`. -/
def juxtaposedSegments : List Segment :=
  [⟨.function, "max", 0⟩, ⟨.leftParen, "(", 3⟩, ⟨.leftParen, "(", 4⟩, ⟨.literal, "1", 5⟩,
   ⟨.rightParen, ")", 6⟩, ⟨.leftParen, "(", 8⟩, ⟨.literal, "2", 9⟩, ⟨.rightParen, ")", 10⟩,
   ⟨.rightParen, ")", 11⟩]

/-- What the call of `max((1) (2))` encloses. -/
def juxtaposedGroups : List Segment :=
  [⟨.leftParen, "(", 4⟩, ⟨.literal, "1", 5⟩, ⟨.rightParen, ")", 6⟩, ⟨.leftParen, "(", 8⟩,
   ⟨.literal, "2", 9⟩, ⟨.rightParen, ")", 10⟩]

/-- Two groups side by side are one argument and are counted twice. -/
theorem counts_juxtaposed :
    Instruction.ofSegments? (SymbolTable.standard.grammar .standard "max((1) (2))")
        juxtaposedSegments = .ok [.value "1" 5, .value "2" 9, .call "max" 0 2]
      ∧ CallIn juxtaposedSegments [] ⟨.function, "max", 0⟩ juxtaposedGroups
      ∧ argumentCount juxtaposedGroups = 1 := by
  have hone : Matched [⟨.literal, "1", 5⟩] := .plain (Or.inl rfl) .nil
  have htwo : Matched [⟨.literal, "2", 9⟩] := .plain (Or.inl rfl) .nil
  have hmatched : Matched juxtaposedGroups := .group rfl hone rfl (.group rfl htwo rfl .nil)
  have hcall : CallIn ([] ++ ⟨.function, "max", 0⟩ :: ⟨.leftParen, "(", 3⟩
      :: (juxtaposedGroups ++ [⟨.rightParen, ")", 11⟩])) [] ⟨.function, "max", 0⟩
      juxtaposedGroups :=
    .intro rfl rfl hmatched.balanced rfl
  exact ⟨rfl, hcall, rfl⟩

end UnitCalc
