/-
Limits only filter.

Each stage of parsing has its own checks, on the length of the source, on
counters of the reduction and on the finished tree, and each succeeds under
certain limits exactly if it succeeds under any and what it gives is within
them. Put together, the tree that is parsed is the same under all limits that it
respects (`Tree.ofSource_filtered`).

# The counters of the reduction

A counter is checked whenever it grows, long before there is a tree, and it is
the tree that the limit is stated about. That a counter ends as the number of
arguments of a node is `Reduction.ofSegments_limits` and
`Expr.callsWithin_iff`: what the calls of a listing take is what was counted,
and no counter was ever higher than where it ended.

# Two sets of limits

Neither need be the tighter one. Two answers are compared under limits that
admit whatever either admits (`Limits.exists_wider`).
-/
import UnitCalc.Proofs.Parsing.Complete
import UnitCalc.Proofs.Reduction.Limits

namespace UnitCalc

variable {t : SymbolTable} {units : UnitRegistry} {source : String} {tree : Tree}

/-- Whether other limits admit at least as much, each of them. -/
structure Limits.Tighter (limits wider : Limits) : Prop where
  expressionLength : limits.expressionLength ≤ wider.expressionLength
  depth : limits.depth ≤ wider.depth
  nodes : limits.nodes ≤ wider.nodes
  arguments : limits.arguments ≤ wider.arguments

theorem Tree.Within.widen {limits wider : Limits} (h : Tree.Within limits tree)
    (hwider : limits.Tighter wider) : Tree.Within wider tree := by
  obtain ⟨hnodes, hdepth, hcalls⟩ := h
  refine ⟨Int.le_trans hnodes hwider.nodes, Int.le_trans hdepth hwider.depth, ?_⟩
  intro function arguments position hmem
  exact Int.le_trans (hcalls function arguments position hmem) hwider.arguments

/-- Any two sets of limits are tighter than a third one. -/
theorem Limits.exists_wider (limits limits' : Limits) :
    ∃ wider, limits.Tighter wider ∧ limits'.Tighter wider :=
  ⟨⟨max limits.expressionLength limits'.expressionLength, max limits.depth limits'.depth,
      max limits.nodes limits'.nodes, max limits.arguments limits'.arguments⟩,
    ⟨Int.le_max_left _ _, Int.le_max_left _ _, Int.le_max_left _ _, Int.le_max_left _ _⟩,
    ⟨Int.le_max_right _ _, Int.le_max_right _ _, Int.le_max_right _ _, Int.le_max_right _ _⟩⟩

-- ================================================================== stages

theorem Segment.ofSource_limits {lexicon : Lexicon} {segments : List Segment} (limits : Limits) :
    Segment.ofSource? lexicon limits source = .ok segments
      ↔ (∃ limits', Segment.ofSource? lexicon limits' source = .ok segments)
        ∧ (source.length : Int) ≤ limits.expressionLength := by
  unfold ofSource? Limits.checkLength
  simp only [bind_eq_ok, Limits.check_eq_ok]
  constructor
  · rintro ⟨done, hlength, hscanned⟩
    exact ⟨⟨limits, done, hlength, hscanned⟩, hlength⟩
  · rintro ⟨⟨limits', done, -, hscanned⟩, hlength⟩
    exact ⟨done, hlength, hscanned⟩

theorem Tree.ofInstructions_limits {instructions : List Instruction} (limits : Limits) :
    Tree.ofInstructions? t limits source instructions = .ok tree
      ↔ (∃ limits', Tree.ofInstructions? t limits' source instructions = .ok tree)
        ∧ (tree.count : Int) ≤ limits.nodes ∧ (tree.depth : Int) ≤ limits.depth := by
  unfold ofInstructions? Limits.checkNodes Limits.checkDepth
  simp only [bind_eq_ok, Limits.check_eq_ok, pure_eq_ok]
  constructor
  · rintro ⟨stack, hbuild, built, hbuilt, done, hnodes, done', hdepth, rfl⟩
    exact ⟨⟨limits, stack, hbuild, built, hbuilt, done, hnodes, done', hdepth, rfl⟩, hnodes, hdepth⟩
  · rintro ⟨⟨limits', stack, hbuild, built, hbuilt, done, -, done', -, rfl⟩, hnodes, hdepth⟩
    exact ⟨stack, hbuild, built, hbuilt, done, hnodes, done', hdepth, rfl⟩

/-- The reducer's counters are the numbers of arguments in the tree. -/
theorem Tree.ofSegments_limits {segments : List Segment} (limits : Limits) :
    Tree.ofSegments? t limits source segments = .ok tree
      ↔ (∃ limits', Tree.ofSegments? t limits' source segments = .ok tree)
        ∧ tree.Within limits := by
  unfold ofSegments?
  simp only [bind_eq_ok]
  constructor
  · rintro ⟨instructions, hreduced, hbuilt⟩
    obtain ⟨-, hcounts⟩ := (Reduction.ofSegments_limits (t.grammar limits source) limits).1 hreduced
    obtain ⟨-, hnodes, hdepth⟩ := (Tree.ofInstructions_limits limits).1 hbuilt
    obtain ⟨rfl, -⟩ := Tree.postorder_of_ofInstructions hbuilt
    exact ⟨⟨limits, _, hreduced, hbuilt⟩, hnodes, hdepth, Expr.callsWithin_iff.2 hcounts⟩
  · rintro ⟨⟨limits', instructions, hreduced, hbuilt⟩, hnodes, hdepth, hcalls⟩
    obtain ⟨rfl, -⟩ := Tree.postorder_of_ofInstructions hbuilt
    have hcounts := Expr.callsWithin_iff.1 hcalls
    refine ⟨_, (Reduction.ofSegments_limits (t.grammar limits source) limits).2
      ⟨⟨limits', hreduced⟩, hcounts⟩, ?_⟩
    exact (Tree.ofInstructions_limits limits).2 ⟨⟨limits', hbuilt⟩, hnodes, hdepth⟩

-- ================================================================= parsing

/-- A tree is parsed under certain limits exactly if it is parsed under any
and the source and the tree respect these. -/
theorem Tree.ofSource_eq_ok {limits : Limits} :
    Tree.ofSource? t units limits source = .ok tree
      ↔ (∃ limits', Tree.ofSource? t units limits' source = .ok tree)
        ∧ (source.length : Int) ≤ limits.expressionLength ∧ tree.Within limits := by
  unfold ofSource?
  simp only [bind_eq_ok]
  constructor
  · rintro ⟨segments, hsegments, hparsed⟩
    obtain ⟨-, hlength⟩ := (Segment.ofSource_limits limits).1 hsegments
    obtain ⟨-, hwithin⟩ := (Tree.ofSegments_limits limits).1 hparsed
    exact ⟨⟨limits, segments, hsegments, hparsed⟩, hlength, hwithin⟩
  · rintro ⟨⟨limits', segments, hsegments, hparsed⟩, hlength, hwithin⟩
    exact ⟨segments, (Segment.ofSource_limits limits).2 ⟨⟨limits', hsegments⟩, hlength⟩,
      (Tree.ofSegments_limits limits).2 ⟨⟨limits', hparsed⟩, hwithin⟩⟩

theorem Tree.ofSource_widen {limits wider : Limits} (hwider : limits.Tighter wider)
    (h : Tree.ofSource? t units limits source = .ok tree) :
    Tree.ofSource? t units wider source = .ok tree := by
  obtain ⟨-, hlength, hwithin⟩ := Tree.ofSource_eq_ok.1 h
  exact Tree.ofSource_eq_ok.2
    ⟨⟨limits, h⟩, Int.le_trans hlength hwider.expressionLength, hwithin.widen hwider⟩

/-- Limits only filter: they decide which trees are parsed, a wider limit
admits at least as many, and no limit changes a tree. -/
theorem Tree.ofSource_filtered (t : SymbolTable) (units : UnitRegistry) (source : String) :
    (∀ limits tree, Tree.ofSource? t units limits source = .ok tree
      ↔ (∃ limits', Tree.ofSource? t units limits' source = .ok tree)
        ∧ (source.length : Int) ≤ limits.expressionLength ∧ tree.Within limits)
    ∧ (∀ limits wider tree, limits.Tighter wider →
      Tree.ofSource? t units limits source = .ok tree →
      Tree.ofSource? t units wider source = .ok tree)
    ∧ ∀ limits limits' tree tree', Tree.ofSource? t units limits source = .ok tree →
      Tree.ofSource? t units limits' source = .ok tree' → tree = tree' := by
  refine ⟨fun _ _ => Tree.ofSource_eq_ok, fun _ _ _ => Tree.ofSource_widen, ?_⟩
  intro limits limits' tree tree' h h'
  -- Both trees are parsed under limits that admit whatever either admits.
  obtain ⟨wider, hwider, hwider'⟩ := Limits.exists_wider limits limits'
  have hsame := Tree.ofSource_widen hwider h
  rw [Tree.ofSource_widen hwider' h'] at hsame
  exact (Except.ok.inj hsame).symm

/-- The limits that `max(1, 2)` just respects. -/
def tightLimits : Limits :=
  { expressionLength := 9, depth := 3, nodes := 4, arguments := 2 }

/-- What is parsed under these is the same under the usual ones. -/
theorem Tree.ofSource_filtered_max :
    ∃ tree, Tree.ofSource? .standard ({} : Config).units tightLimits "max(1, 2)" = .ok tree
      ∧ tree.Within tightLimits
      ∧ Tree.ofSource? .standard ({} : Config).units .standard "max(1, 2)" = .ok tree := by
  have hparsed : (Tree.ofSource? .standard ({} : Config).units tightLimits
      "max(1, 2)").toOption.map Tree.count = some 4 := by
    decide +kernel
  obtain ⟨tree, hsome, -⟩ := Option.map_eq_some_iff.1 hparsed
  have htree := toOption_eq_some.1 hsome
  obtain ⟨hrespects, hwider, -⟩ := Tree.ofSource_filtered .standard ({} : Config).units "max(1, 2)"
  obtain ⟨-, -, hwithin⟩ := (hrespects tightLimits tree).1 htree
  refine ⟨tree, htree, hwithin, hwider tightLimits .standard tree ?_ htree⟩
  constructor <;> decide

end UnitCalc
