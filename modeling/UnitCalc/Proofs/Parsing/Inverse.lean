/-
Building inverts listing.

Apart from the limits, which are looked at only when a tree is there,
instructions are accepted exactly if they list a tree over the table, and it is
this tree that is built (`Tree.ofInstructions_eq_ok`). What lists no tree is
reported as a fault of the building, whatever the limits are.

# Limits last

`Tree.rooted` is the building up to the limits, so that what can be built is
said without them (`Tree.rooted_eq_ok`). One direction is that a listing builds
its tree (`Expr.build_postorder_eq`). The other is proved for all of the
building in `Proofs/Expr/Rebuild`, with limits; it is used with limits that the
tree just respects.

# Put together

The theorem `Tree.ofInstructions_inverts` has four parts: where no limit is
exceeded, what is accepted and what is built; what is refused, and how; that
every tree is built of its listing; and that no tree is built of two lists. The
last three hold under any limits.
-/
import UnitCalc.Proofs.Parsing.Faults
import UnitCalc.Proofs.Parsing.Limits

namespace UnitCalc

namespace Tree

variable {t : SymbolTable} {limits : Limits} {source : String} {instructions : List Instruction}
  {tree : Tree}

/-- The tree that is left when all instructions are carried out, before any
limit is looked at. -/
def rooted (t : SymbolTable) (source : String) (instructions : List Instruction) :
    Except Fault Tree :=
  Expr.build t source [] instructions >>= ofStack? source

/-- A tree is made whatever the limits are, and then it is measured. -/
theorem ofInstructions_eq_rooted :
    ofInstructions? t limits source instructions = (do
      let tree ← rooted t source instructions
      limits.checkNodes tree.count
      limits.checkDepth tree.depth
      return tree) := by
  rw [rooted, bind_assoc]
  rfl

theorem rooted_postorder {e : Expr} (he : e.Over t) :
    rooted t source e.postorder = .ok ⟨source, e⟩ := by
  rw [rooted, Expr.build_postorder_eq he]
  rfl

theorem ofInstructions_eq_ok_iff_rooted :
    ofInstructions? t limits source instructions = .ok tree
      ↔ rooted t source instructions = .ok tree
        ∧ (tree.count : Int) ≤ limits.nodes ∧ (tree.depth : Int) ≤ limits.depth := by
  rw [ofInstructions_eq_rooted]
  unfold Limits.checkNodes Limits.checkDepth
  simp only [bind_eq_ok, Limits.check_eq_ok, pure_eq_ok]
  constructor
  · rintro ⟨tree, hrooted, _, hnodes, _, hdepth, rfl⟩
    exact ⟨hrooted, hnodes, hdepth⟩
  · rintro ⟨hrooted, hnodes, hdepth⟩
    exact ⟨tree, hrooted, (), hnodes, (), hdepth, rfl⟩

/-- What is made of instructions lists them, and is over the table. -/
theorem rooted_eq_ok :
    rooted t source instructions = .ok tree
      ↔ tree.source = source ∧ tree.child.Over t ∧ tree.child.postorder = instructions := by
  constructor
  · intro h
    -- Limits that the tree just respects.
    have hbuilt : ofInstructions? t { nodes := tree.count, depth := tree.depth } source instructions
        = .ok tree :=
      ofInstructions_eq_ok_iff_rooted.2 ⟨h, Int.le_refl _, Int.le_refl _⟩
    obtain ⟨rfl, hover⟩ := postorder_of_ofInstructions hbuilt
    rw [rooted_postorder hover] at h
    exact ⟨(congrArg Tree.source (Except.ok.inj h)).symm, hover, rfl⟩
  · rintro ⟨rfl, hover, rfl⟩
    exact rooted_postorder hover

/-- A tree is built of its own listing and of nothing else. -/
theorem ofInstructions_eq_ok :
    ofInstructions? t limits source instructions = .ok tree
      ↔ (tree.source = source ∧ tree.child.Over t ∧ tree.child.postorder = instructions)
        ∧ (tree.count : Int) ≤ limits.nodes ∧ (tree.depth : Int) ≤ limits.depth := by
  rw [ofInstructions_eq_ok_iff_rooted, rooted_eq_ok]

/-- The listing of an expression is accepted, or it exceeds a limit. -/
theorem ofInstructions_postorder_answers {e : Expr} (he : e.Over t) :
    Answers (· = .limitExceeded) (· = ⟨source, e⟩)
      (ofInstructions? t limits source e.postorder) := by
  rw [ofInstructions_eq_rooted, rooted_postorder he]
  refine (Limits.check_answers _ _ _).bind fun _ _ => ?_
  exact (Limits.check_answers _ _ _).bind fun _ _ => .ok rfl

/-- What lists no expression is a fault of the building. -/
theorem ofInstructions_unlisted (hknown : ∀ i ∈ instructions, i.Known t)
    (hunlisted : ∀ e : Expr, e.Over t → e.postorder ≠ instructions) :
    ∃ error, ofInstructions? t limits source instructions = .error (.expression error)
      ∧ error.kind = .build := by
  have hrooted : Answers (· = .build) (fun _ => True) (rooted t source instructions) := by
    refine (Expr.build_answers hknown (by simp)).bind fun stack hstack => ?_
    exact (ofStack_answers hstack).weaken (fun _ h => h) fun _ _ => trivial
  rw [ofInstructions_eq_rooted]
  -- The limits come behind the tree, so a fault in front of them is the fault of the building.
  cases hanswer : rooted t source instructions with
  | ok tree =>
      obtain ⟨-, hover, hlists⟩ := rooted_eq_ok.1 hanswer
      exact absurd hlists (hunlisted tree.child hover)
  | error fault =>
      rw [hanswer] at hrooted
      cases hrooted with
      | reported hkind => exact ⟨_, rfl, hkind⟩

/-- The listing of an expression builds it, if no limit is exceeded. -/
theorem ofInstructions_listed {e : Expr} (he : e.Over t)
    (hlimits : ∀ error,
      ofInstructions? t limits source e.postorder = .error (.expression error) →
      error.kind ≠ .limitExceeded) :
    ofInstructions? t limits source e.postorder = .ok ⟨source, e⟩ := by
  have hanswers : Answers (· = .limitExceeded) (· = ⟨source, e⟩)
      (ofInstructions? t limits source e.postorder) :=
    ofInstructions_postorder_answers he
  cases hanswer : ofInstructions? t limits source e.postorder with
  | ok tree =>
      rw [hanswer] at hanswers
      cases hanswers with
      | ok htree => rw [htree]
  | error fault =>
      rw [hanswer] at hanswers
      cases hanswers with
      | reported hkind => exact absurd hkind (hlimits _ hanswer)

/-- Building inverts listing. Where no limit is exceeded, instructions are
accepted exactly if they list an expression over the table; what is built
is that expression, and its listing gives the instructions back. Known
instructions that list no expression are a fault of the building. Every
expression over the table is built from its listing, and no expression is
built of two different lists. -/
theorem ofInstructions_inverts (t : SymbolTable) :
    (∀ limits source instructions,
      (∀ error, ofInstructions? t limits source instructions = .error (.expression error) →
        error.kind ≠ .limitExceeded) →
      ((∃ tree, ofInstructions? t limits source instructions = .ok tree)
        ↔ ∃ e : Expr, e.Over t ∧ e.postorder = instructions)
      ∧ ∀ tree, ofInstructions? t limits source instructions = .ok tree
        ↔ tree.source = source ∧ tree.child.Over t ∧ tree.child.postorder = instructions)
    ∧ (∀ limits source instructions, (∀ i ∈ instructions, i.Known t) →
      (∀ e : Expr, e.Over t → e.postorder ≠ instructions) →
      ∃ error, ofInstructions? t limits source instructions = .error (.expression error)
        ∧ error.kind = .build)
    ∧ (∀ limits source (e : Expr), e.Over t →
      (count ⟨source, e⟩ : Int) ≤ limits.nodes → (depth ⟨source, e⟩ : Int) ≤ limits.depth →
      ofInstructions? t limits source e.postorder = .ok ⟨source, e⟩)
    ∧ ∀ limits limits' source source' instructions instructions' tree tree',
      ofInstructions? t limits source instructions = .ok tree →
      ofInstructions? t limits' source' instructions' = .ok tree' →
      tree.child = tree'.child → instructions = instructions' := by
  refine ⟨?_, ?_, ?_, ?_⟩
  · intro limits source instructions hlimits
    have hbuilt : ∀ tree, ofInstructions? t limits source instructions = .ok tree
        ↔ tree.source = source ∧ tree.child.Over t ∧ tree.child.postorder = instructions := by
      intro tree
      refine ⟨fun h => (ofInstructions_eq_ok.1 h).1, ?_⟩
      rintro ⟨rfl, hover, rfl⟩
      exact ofInstructions_listed hover hlimits
    refine ⟨⟨?_, ?_⟩, hbuilt⟩
    · rintro ⟨tree, h⟩
      exact ⟨tree.child, ((hbuilt tree).1 h).2⟩
    · rintro ⟨e, hover, hlists⟩
      exact ⟨⟨source, e⟩, (hbuilt ⟨source, e⟩).2 ⟨rfl, hover, hlists⟩⟩
  · intro limits source instructions hknown hunlisted
    exact ofInstructions_unlisted hknown hunlisted
  · intro limits source e hover hnodes hdepth
    exact ofInstructions_eq_ok.2 ⟨⟨rfl, hover, rfl⟩, hnodes, hdepth⟩
  · intro limits limits' source source' instructions instructions' tree tree' h h' hchild
    obtain ⟨⟨-, -, hlists⟩, -⟩ := ofInstructions_eq_ok.1 h
    obtain ⟨⟨-, -, hlists'⟩, -⟩ := ofInstructions_eq_ok.1 h'
    rw [← hlists, hchild, hlists']

/-- The listing of `max(1,max())`, the inner call being without arguments. -/
def nestedCalls : List Instruction :=
  [.value "1" 4, .call "max" 6 0, .call "max" 0 2]

/-- The calls are built and list what they were built of; without the outer
one, nothing is built. -/
theorem ofInstructions_inverts_nestedCalls :
    (∃ e : Expr, e.postorder = nestedCalls
      ∧ ofInstructions? .standard .standard "max(1,max())" nestedCalls = .ok ⟨"max(1,max())", e⟩)
    ∧ ∃ error, ofInstructions? .standard .standard "max(1,max())" nestedCalls.dropLast
        = .error (.expression error) ∧ error.kind = .build := by
  obtain ⟨hinverts, hunlisted, hrebuilt, -⟩ := ofInstructions_inverts .standard
  constructor
  · have hbuilt : (ofInstructions? .standard .standard "max(1,max())"
        nestedCalls).toOption.map (fun tree => (tree.count, tree.depth)) = some (4, 3) := by
      decide +kernel
    obtain ⟨⟨source, e⟩, hsome, hmeasured⟩ := Option.map_eq_some_iff.1 hbuilt
    obtain ⟨hcount, hdepth⟩ := Prod.mk.inj hmeasured
    have htree := toOption_eq_some.1 hsome
    obtain ⟨-, hlists⟩ := hinverts .standard "max(1,max())" nestedCalls (by simp [htree])
    obtain ⟨hsource, hover, hlisted⟩ := (hlists ⟨source, e⟩).1 htree
    refine ⟨e, hlisted, ?_⟩
    rw [← hlisted, ← hsource]
    refine hrebuilt .standard source e hover ?_ ?_
    · rw [hcount]
      decide
    · rw [hdepth]
      decide
  · have hfault : ofInstructions? .standard .standard "max(1,max())" nestedCalls.dropLast
        = .error (Expr.buildFault "max(1,max())" 6 (.operandsLeft 2)) := by
      rfl
    refine hunlisted .standard _ _ ?_ fun e hover hlists => ?_
    · intro i hi
      have hcases : i = .value "1" 4 ∨ i = .call "max" 6 0 := by simpa [nestedCalls] using hi
      rcases hcases with rfl | rfl
      · exact trivial
      · exact Option.isSome_iff_exists.1 (by decide)
    · obtain ⟨haccepted, -⟩ := hinverts .standard "max(1,max())" nestedCalls.dropLast (by
        rw [hfault]
        rintro _ ⟨⟩
        decide)
      obtain ⟨tree, htree⟩ := haccepted.2 ⟨e, hover, hlists⟩
      rw [hfault] at htree
      cases htree

end Tree

end UnitCalc
