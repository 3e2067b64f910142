/-
Where a reduction reports.

It reports the places of the segments it is given and no others
(`ofSegments_faults`). What a step refuses is the segment at hand, as the
invariant says (`Ran`). At the end it is a parenthesis that still waits on the
stack, and nothing waits there that was not given: a step puts nothing on the
stack but its segment (`step_stack`, by the inversion of a step), so a run puts
nothing there but its list (`run_stack`, by induction on it).

Going over a limit has no place at all.
-/
import UnitCalc.Proofs.Error.Places
import UnitCalc.Proofs.Reduction.Invariant
import UnitCalc.Proofs.Reduction.Inversion

namespace UnitCalc.Reduction

variable {grammar : Grammar} {r r' : Reduction} {x : Segment}

-- =============================================================== the stack

theorem release_stack (h : release grammar r x = .ok r') : r'.stack = r.stack := by
  rcases release_eq_ok h with ⟨-, _, _, -, rfl⟩ | ⟨-, rfl⟩ <;> rfl

theorem releaseWhile_stack {test : Segment → Except Fault Bool} {stack : List Segment} :
    ∀ {r : Reduction}, releaseWhile grammar test stack r = .ok r' → r'.stack ⊆ stack := by
  induction stack with
  | nil =>
      intro r h
      cases h
      exact List.Subset.refl _
  | cons top below ih =>
      intro r h
      rw [releaseWhile] at h
      obtain ⟨passes, -, h⟩ := bind_eq_ok.1 h
      cases passes with
      | true =>
          obtain ⟨_, -, h⟩ := bind_eq_ok.1 h
          exact List.subset_cons_of_subset top (ih h)
      | false =>
          cases h
          exact List.Subset.refl _

/-- A step puts nothing on the stack but its segment. -/
theorem step_stack {next : Option SegmentKind} (h : step grammar r x next = .ok r') :
    r'.stack ⊆ x :: r.stack := by
  cases hx : x.kind with
  | literal =>
      rw [step_literal_ok hx h]
      exact List.subset_cons_self x r.stack
  | function =>
      rw [step_function_ok hx h]
      exact List.Subset.refl _
  | operator =>
      obtain ⟨test, released, -, hreleased, rfl⟩ := step_operator_ok hx h
      exact List.cons_subset_cons x (releaseWhile_stack hreleased)
  | leftParen =>
      rw [step_leftParen_ok hx h]
      exact List.Subset.refl _
  | comma =>
      obtain ⟨released, hreleased, rfl⟩ := step_comma_ok hx h
      have hreleasedStack : released.stack ⊆ r.stack := releaseWhile_stack hreleased
      exact List.subset_cons_of_subset x hreleasedStack
  | rightParen =>
      obtain ⟨released, o, below, hreleased, hstack, hbehind⟩ := step_rightParen_ok hx h
      have hreleasedStack : released.stack ⊆ r.stack := releaseWhile_stack hreleased
      rw [hstack] at hreleasedStack
      have hbelow : below ⊆ x :: r.stack :=
        List.subset_cons_of_subset x
          (List.Subset.trans (List.subset_cons_self o below) hreleasedStack)
      rcases hbehind with ⟨f, rest, called, rfl, -, hcalled, rfl⟩ | ⟨-, rfl⟩
      · show called.stack ⊆ x :: r.stack
        rw [release_stack hcalled]
        exact List.Subset.trans (List.subset_cons_self f rest) hbelow
      · exact hbelow

theorem run_stack {segments : List Segment} :
    ∀ {r : Reduction}, run grammar r segments = .ok r' → r'.stack ⊆ segments ++ r.stack := by
  induction segments with
  | nil =>
      intro r h
      cases h
      exact List.Subset.refl _
  | cons x more ih =>
      intro r h
      rw [run] at h
      obtain ⟨middle, hstep, h⟩ := bind_eq_ok.1 h
      intro y hy
      rcases List.mem_append.1 (ih h hy) with hmore | hmiddle
      · exact List.mem_append_left _ (List.mem_cons_of_mem x hmore)
      · rcases List.mem_cons.1 (step_stack hstep hmiddle) with rfl | hstack
        · exact List.mem_append_left _ List.mem_cons_self
        · exact List.mem_append_right _ hstack

-- ============================================================= whole lists

/-- What is reported of a list of segments is reported at one of them. -/
theorem ofSegments_faults (grammar : Grammar) (segments : List Segment) :
    FaultsIn (fun p => ∃ x ∈ segments, x.position = p)
      (Instruction.ofSegments? grammar segments) := by
  have hran : Ran grammar [] {} segments (run grammar {} segments) :=
    Sound.start.run (by simp)
  unfold Instruction.ofSegments?
  cases hrun : run grammar {} segments with
  | error fault =>
      rw [hrun] at hran
      refine .error ?_
      cases hran with
      | refused reason _ hmem _ => exact .at_place _ _ ⟨_, hmem, rfl⟩
      | overfull _ => exact .bare _
  | ok r' =>
      rw [hrun] at hran
      have hstack : r'.stack ⊆ segments := by
        have hsubset := run_stack hrun
        rwa [List.append_nil] at hsubset
      cases hran with
      | taken _ _ hnotNamed hsound _ =>
          cases hsound with
          | named _ _ _ _ hbehind => exact absurd hbehind hnotNamed
          | between hnested _ _ _ =>
              rcases hnested.finish with ⟨rfl, -, hfinish⟩ | ⟨-, o, ho, hfinish⟩
              · simp only [bind, Except.bind, hfinish]
                exact .ok _
              · -- A parenthesis has been left open.
                simp only [bind, Except.bind, hfinish]
                exact .error (.at_place _ _ ⟨o, hstack ho, rfl⟩)

end UnitCalc.Reduction
