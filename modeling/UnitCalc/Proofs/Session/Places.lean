/-
Places from end to end.

A tree keeps what the segments knew about the source: the label of a node
stands where the node says it does, no two nodes claim one place, and nothing
else was counted (`Tree.Placed`). And whoever reports, from the first look at
the source to the last request of a session, points to a segment or to the
start (`Session.places_from_source`).

The report of a request is placed at a node (`Node.visit_raises`), and nodes
have the places of segments (`Tree.within_of_ofSource`), whatever has been
computed before and whatever symbols and units are used by then. Tests,
formulas and implementations are asked to know no place but that of their call;
the built-in ones do not (`Proofs/Symbol/Unplaced`).
-/
import UnitCalc.Proofs.Evaluation.Places
import UnitCalc.Proofs.Parsing.Places
import UnitCalc.Proofs.Session.History

namespace UnitCalc

variable {t : SymbolTable} {units : UnitRegistry} {limits : Limits} {source : String}
  {segments : List Segment}

/-- What the nodes of a tree tell about its source and the segments of it. -/
structure Tree.Placed (tree : Tree) (source : String) (segments : List Segment) : Prop where
  /-- Every label stands in the source where its node is placed. -/
  labels : ∀ e ∈ tree.child.preorder, (source.toList.drop e.position).take
    (Node.inner e).label.length = (Node.inner e).label.toList
  /-- No two nodes have one place. -/
  distinct : (tree.child.preorder.map Expr.position).Nodup
  /-- Besides the root, there is a node for every literal, operator and function. -/
  counted : tree.count = 1 + segments.countP Segment.isCarried
  /-- A node takes a character at least. -/
  bounded : tree.count ≤ 1 + source.length

namespace Tree

/-- Trees keep the places of the segments they are built from. -/
theorem placed_of_ofSegments {tree : Tree}
    (h : Tree.ofSegments? t limits source segments = .ok tree)
    (hcovered : Covered source.toList segments) : tree.Placed source segments where
  labels e he := by
    rw [← e.segment_text, ← e.segment_position]
    exact hcovered.slices e.segment (segment_mem h he)
  distinct := nodup_positions h hcovered
  counted := count_eq h
  bounded := count_le h hcovered

/-- The nodes of a parsed tree have places that may be reported. -/
theorem within_of_ofSource {tree : Tree} (h : Tree.ofSource? t units limits source = .ok tree) :
    (Node.root tree).Over t
      ∧ (Node.root tree).Within (Segment.Place (.of t units) limits source) := by
  obtain ⟨segments, hsegments, hbuilt⟩ := bind_eq_ok.1 h
  obtain ⟨instructions, -, hinstructions⟩ := bind_eq_ok.1 hbuilt
  obtain ⟨-, hover⟩ := Tree.postorder_of_ofInstructions hinstructions
  refine ⟨hover, Node.within_root.2 ⟨Or.inl rfl, fun e he => Or.inr ⟨segments, hsegments, ?_⟩⟩⟩
  exact ⟨e.segment, segment_mem hbuilt he, e.segment_position⟩

end Tree

namespace Session

/-- What a request reports is placed where the nodes are. -/
theorem ask_faults {s : Session} {places : Nat → Prop} (henv : s.environment.Unplaced)
    (ht : t.Unplaced) (hover : (Node.root s.tree).Over t)
    (hwithin : (Node.root s.tree).Within places) (r : Request) :
    FaultsIn places (s.ask r).1 := by
  rw [ask_eq]
  exact Node.visit_raises henv ht r.entry r.path (.root s.tree) hover hwithin s.progress

/-- Places are right from the source to the last answer. A tree that is parsed
has its labels where they stand in the source, every place once and a node for
every segment that needs one. If tests, formulas and implementations know no
place but that of their call, then every error that has a place, of parsing or
of a request in a session with the tree, has that of a segment or of the
start. -/
theorem places_from_source (t : SymbolTable) (units : UnitRegistry) (limits : Limits)
    (source : String) :
    (∀ tree, Tree.ofSource? t units limits source = .ok tree →
        ∃ segments, Segment.ofSource? (.of t units) limits source = .ok segments
          ∧ tree.Placed source segments)
      ∧ (t.Unplaced →
        FaultsIn (Segment.Place (.of t units) limits source)
            (Tree.ofSource? t units limits source)
          ∧ ∀ s : Session, Tree.ofSource? t units limits source = .ok s.tree →
            s.environment.Unplaced → ∀ r : Request,
              FaultsIn (Segment.Place (.of t units) limits source) (s.ask r).1) := by
  refine ⟨fun tree h => ?_, fun ht => ⟨Tree.ofSource_faults ht, fun s h henv r => ?_⟩⟩
  · obtain ⟨segments, hsegments, hbuilt⟩ := bind_eq_ok.1 h
    exact ⟨segments, hsegments,
      Tree.placed_of_ofSegments hbuilt (Segment.covered_of_ofSource hsegments)⟩
  · obtain ⟨hover, hwithin⟩ := Tree.within_of_ofSource h
    exact ask_faults henv ht hover hwithin r

/-- A source that parses and whose sum cannot be computed reports the sign of
the sum, and a call that lacks an argument reports a comma. -/
theorem places_from_source_sum :
    (∃ s : Session, ∃ segments,
      Tree.ofSource? .standard ({} : Config).units .standard "abs(2) + 3cm" = .ok s.tree
        ∧ s.tree.Placed "abs(2) + 3cm" segments
        ∧ placeOf? (s.ask ⟨[], .value⟩).1 = some 7
        ∧ Segment.Place (.of .standard ({} : Config).units) .standard "abs(2) + 3cm" 7)
      ∧ placeOf? (Tree.ofSource? .standard ({} : Config).units .standard "max(1,,2)") = some 6
      ∧ Segment.Place (.of .standard ({} : Config).units) .standard "max(1,,2)" 6 := by
  have hunits := UnitRegistry.unplaced_standard (.number UnitRegistry.defaultResolution)
    UnitRegistry.defaultCanonicalUnit
  have hasked : (Tree.ofSource? .standard ({} : Config).units .standard "abs(2) + 3cm").map
      (fun tree => placeOf? ((new tree (.of .standard none {})
        { draws := { dice := .lowest } }).ask ⟨[], .value⟩).1) = .ok (some 7) := by
    decide +kernel
  have hparsed : placeOf? (Tree.ofSource? .standard ({} : Config).units .standard "max(1,,2)")
      = some 6 := by
    decide +kernel
  obtain ⟨tree, htree, hplace⟩ := map_eq_ok.1 hasked
  obtain ⟨hplaced, hreports⟩ := places_from_source .standard ({} : Config).units .standard
    "abs(2) + 3cm"
  obtain ⟨segments, -, hplaced⟩ := hplaced tree htree
  obtain ⟨-, hreports⟩ := hreports SymbolTable.unplaced_standard
  have hanswer := hreports (new tree (.of .standard none {}) { draws := { dice := .lowest } })
    htree ⟨hunits, SymbolTable.unplaced_standard.validators⟩ ⟨[], .value⟩
  obtain ⟨-, hfailure⟩ := places_from_source .standard ({} : Config).units .standard "max(1,,2)"
  exact ⟨⟨_, segments, htree, hplaced, hplace, hanswer.placeOf hplace⟩, hparsed,
    (hfailure SymbolTable.unplaced_standard).1.placeOf hparsed⟩

end Session

end UnitCalc
