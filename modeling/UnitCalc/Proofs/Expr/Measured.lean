/-
When measuring succeeds, and with what.

A measuring on a stack gives the measure if the stack has as much room as the
measuring reaches, and is broken off otherwise (`measureWithin_eq`). It gives
no third answer, and which of the two it gives does not depend on how
measures are combined: the room is spent on the shape of the expression
alone. Both halves are inductions on the expression with the room
generalized, since every level leaves one call less to what is below. The
half that breaks off needs the other one: the left operand and the arguments
in front are measured before the part that is too deep is come to.

# How far it reaches

A measuring always reaches beyond the last level (`depth_lt_reach`): every
level has a call of its own, and the last one asks its node for its kind. What
is pending behind the arguments of a call adds at most so much for each level
(`reach_le`), and nothing at all when depths are compared (`reach_zero`). So a
tree deeper than the room is never measured, and a tree with few nodes always
is; `Proofs/Parsing/Endings` applies both to sources.
-/
import UnitCalc.Expr.Measured
import UnitCalc.Proofs.Error.Answers

namespace UnitCalc

variable {combine : Nat → Nat → Nat} {passing room : Nat}

-- ============================================================ the room

namespace CallStack

variable {taken asked : Nat}

theorem behind_ok (h : taken + asked ≤ room) : behind room taken asked = .ok (room - taken) := by
  rw [behind, if_neg (Nat.not_lt.2 h)]

theorem behind_exhausted (h : room < taken + asked) :
    behind room taken asked = .error .stackExhausted := by
  rw [behind, if_pos h]

end CallStack

open CallStack

namespace Expr

-- ======================================================== the measures

mutual

/-- A measure of an expression: one more than the measures below combined. -/
def measure (combine : Nat → Nat → Nat) : Expr → Nat
  | literal _ _ => 1
  | binary _ left right _ => 1 + combine (measure combine left) (measure combine right)
  | call _ arguments _ => 1 + measureAll combine arguments

/-- The measures of several expressions combined. -/
def measureAll (combine : Nat → Nat → Nat) : List Expr → Nat
  | [] => 0
  | e :: es => combine (measure combine e) (measureAll combine es)

end

mutual

/-- Measures that are added up are the number of nodes. -/
theorem measure_add (e : Expr) : e.measure (· + ·) = e.count := by
  match e with
  | .literal _ _ => rfl
  | .binary _ left right _ =>
      rw [measure, count, measure_add left, measure_add right, Nat.add_assoc]
  | .call _ arguments _ => rw [measure, count, measureAll_add arguments]

theorem measureAll_add (es : List Expr) : measureAll (· + ·) es = countAll es := by
  match es with
  | [] => rfl
  | e :: es => rw [measureAll, countAll, measure_add e, measureAll_add es]

end

mutual

/-- The greatest of the measures is the depth. -/
theorem measure_max (e : Expr) : e.measure max = e.depth := by
  match e with
  | .literal _ _ => rfl
  | .binary _ left right _ => rw [measure, depth, measure_max left, measure_max right]
  | .call _ arguments _ => rw [measure, depth, measureAll_max arguments]

theorem measureAll_max (es : List Expr) : measureAll max es = depthAll es := by
  match es with
  | [] => rfl
  | e :: es => rw [measureAll, depthAll, measure_max e, measureAll_max es]

end

-- =========================================================== the reach

/-- A node is measured by a call that asks for its kind. -/
theorem two_le_reach (e : Expr) : 2 ≤ e.reach passing := by
  induction e using Expr.rec (motive_2 := fun _ => True) with
  | literal => exact Nat.le_refl 2
  | binary _ left right _ hleft _ =>
      rw [reach]
      omega
  | call =>
      rw [reach]
      omega
  | nil => trivial
  | cons => trivial

mutual

/-- With room for all calls that become pending an expression is measured. -/
theorem measureWithin_ok (e : Expr) {room : Nat} (h : e.reach passing ≤ room) :
    e.measureWithin combine passing room = .ok (e.measure combine) := by
  have hbehind : behind room 1 1 = .ok (room - 1) :=
    behind_ok (Nat.le_trans e.two_le_reach h)
  match e with
  | .literal _ _ =>
      rw [measureWithin, hbehind]
      rfl
  | .binary _ left right _ =>
      rw [reach] at h
      rw [measureWithin, hbehind]
      simp only [bind, Except.bind, measureWithin_ok left (show _ ≤ room - 1 by omega),
        measureWithin_ok right (show _ ≤ room - 1 by omega)]
      rfl
  | .call _ arguments _ =>
      rw [reach] at h
      have hpassed : behind (room - 1) passing 0 = .ok (room - 1 - passing) :=
        behind_ok (by omega)
      rw [measureWithin, hbehind]
      simp only [bind, Except.bind, hpassed,
        measureAllWithin_ok arguments (show _ ≤ room - 1 - passing by omega)]
      rfl

theorem measureAllWithin_ok (es : List Expr) {room : Nat} (h : reachAll passing es ≤ room) :
    measureAllWithin combine passing room es = .ok (measureAll combine es) := by
  match es with
  | [] => rfl
  | e :: es =>
      rw [reachAll] at h
      rw [measureAllWithin]
      simp only [bind, Except.bind, measureWithin_ok e (Nat.le_trans (Nat.le_max_left _ _) h),
        measureAllWithin_ok es (Nat.le_trans (Nat.le_max_right _ _) h)]
      rfl

end

mutual

/-- Without the room the measuring is broken off. -/
theorem measureWithin_exhausted (e : Expr) {room : Nat} (h : room < e.reach passing) :
    e.measureWithin combine passing room = .error .stackExhausted := by
  -- The first two calls may be too much; the parts are come to behind them.
  by_cases hentered : room < 1 + 1
  · have hbehind : behind room 1 1 = .error .stackExhausted := behind_exhausted hentered
    cases e <;> rw [measureWithin, hbehind] <;> rfl
  have hbehind : behind room 1 1 = .ok (room - 1) := behind_ok (Nat.not_lt.1 hentered)
  match e with
  | .literal _ _ => exact absurd h hentered
  | .binary _ left right _ =>
      rw [reach] at h
      rw [measureWithin, hbehind]
      by_cases hleft : room - 1 < left.reach passing
      · simp only [bind, Except.bind, measureWithin_exhausted left hleft]
      · simp only [bind, Except.bind, measureWithin_ok left (Nat.not_lt.1 hleft),
          measureWithin_exhausted right (show room - 1 < _ by omega)]
  | .call _ arguments _ =>
      rw [reach] at h
      rw [measureWithin, hbehind]
      by_cases hpassed : room - 1 < passing + 0
      · simp only [bind, Except.bind, behind_exhausted hpassed]
      · simp only [bind, Except.bind, behind_ok (Nat.not_lt.1 hpassed),
          measureAllWithin_exhausted arguments (show room - 1 - passing < _ by omega)]

theorem measureAllWithin_exhausted (es : List Expr) {room : Nat}
    (h : room < reachAll passing es) :
    measureAllWithin combine passing room es = .error .stackExhausted := by
  match es with
  | [] => cases h
  | e :: es =>
      rw [reachAll] at h
      rw [measureAllWithin]
      by_cases he : room < e.reach passing
      · simp only [bind, Except.bind, measureWithin_exhausted e he]
      · simp only [bind, Except.bind, measureWithin_ok e (Nat.not_lt.1 he),
          measureAllWithin_exhausted es (show room < _ by omega)]

end

/-- An expression is measured on a stack with the room that this takes, and on
no other. -/
theorem measureWithin_eq (e : Expr) :
    e.measureWithin combine passing room
      = if room < e.reach passing then .error .stackExhausted else .ok (e.measure combine) := by
  split
  · next h => exact measureWithin_exhausted e h
  · next h => exact measureWithin_ok e (Nat.not_lt.1 h)

-- ================================================== reach and depth

mutual

/-- Every measuring reaches beyond the last level. -/
theorem depth_lt_reach (e : Expr) : e.depth < e.reach passing := by
  match e with
  | .literal _ _ => exact Nat.lt_succ_self 1
  | .binary _ left right _ =>
      have hleft : left.depth < left.reach passing := left.depth_lt_reach
      have hright : right.depth < right.reach passing := right.depth_lt_reach
      rw [reach, depth]
      omega
  | .call _ arguments _ =>
      have harguments : depthAll arguments < max 1 (reachAll passing arguments) :=
        depthAll_lt_reachAll arguments
      rw [reach, depth]
      omega

theorem depthAll_lt_reachAll (es : List Expr) :
    depthAll es < max 1 (reachAll passing es) := by
  match es with
  | [] => exact Nat.zero_lt_one
  | e :: es =>
      have he : e.depth < e.reach passing := e.depth_lt_reach
      have hes : depthAll es < max 1 (reachAll passing es) := depthAll_lt_reachAll es
      rw [reachAll, depthAll]
      omega

end

mutual

/-- A level takes at most one call and what is pending behind arguments. -/
theorem reach_le (e : Expr) : e.reach passing ≤ (1 + passing) * e.depth + 1 := by
  match e with
  | .literal _ _ =>
      rw [reach, depth]
      omega
  | .binary _ left right _ =>
      have hleft : left.reach passing ≤ (1 + passing) * left.depth + 1 := left.reach_le
      have hright : right.reach passing ≤ (1 + passing) * right.depth + 1 := right.reach_le
      rw [reach, depth, Nat.mul_add, ← Nat.mul_max_mul_left]
      omega
  | .call _ arguments _ =>
      have harguments : reachAll passing arguments ≤ (1 + passing) * depthAll arguments + 1 :=
        reachAll_le arguments
      rw [reach, depth, Nat.mul_add]
      omega

theorem reachAll_le (es : List Expr) :
    reachAll passing es ≤ (1 + passing) * depthAll es + 1 := by
  match es with
  | [] => exact Nat.zero_le _
  | e :: es =>
      have he : e.reach passing ≤ (1 + passing) * e.depth + 1 := e.reach_le
      have hes : reachAll passing es ≤ (1 + passing) * depthAll es + 1 := reachAll_le es
      rw [reachAll, depthAll, ← Nat.mul_max_mul_left]
      omega

end

/-- With nothing pending behind arguments there is a call for each level, and
one that asks for the kind of the last node. -/
theorem reach_zero (e : Expr) : e.reach 0 = 1 + e.depth := by
  have hle : e.reach 0 ≤ (1 + 0) * e.depth + 1 := e.reach_le
  have hlt : e.depth < e.reach 0 := e.depth_lt_reach
  omega

/-- No way down passes more nodes than there are. -/
theorem depthAll_le_countAll (es : List Expr) : depthAll es ≤ countAll es := by
  induction es using forestInduction with
  | nil => exact Nat.le_refl 0
  | cons e es hbelow hes =>
      rw [depthAll, countAll, depth_eq, count_eq]
      omega

theorem depth_le_count (e : Expr) : e.depth ≤ e.count := by
  rw [depth_eq, count_eq]
  exact Nat.add_le_add_left (depthAll_le_countAll e.children) 1

end Expr

-- =========================================================== whole trees

namespace Tree

variable {t : Tree}

theorem measureWithin_eq :
    t.measureWithin combine passing room
      = if room < t.reach passing then .error .stackExhausted
        else .ok (1 + t.child.measure combine) := by
  have hchild : 2 ≤ t.child.reach passing := t.child.two_le_reach
  rw [measureWithin, reach]
  by_cases hentered : room < 1 + 1
  · rw [CallStack.behind_exhausted hentered, if_pos (by omega)]
    rfl
  · rw [CallStack.behind_ok (Nat.not_lt.1 hentered)]
    simp only [bind, Except.bind, Expr.measureWithin_eq]
    by_cases hroom : room < 1 + t.child.reach passing
    · rw [if_pos hroom, if_pos (by omega)]
    · rw [if_neg hroom, if_neg (by omega)]
      rfl

/-- A tree is too deep for a stack without room for every level. -/
theorem depth_lt_reach : t.depth < t.reach passing := by
  have hchild : t.child.depth < t.child.reach passing := t.child.depth_lt_reach
  rw [depth, reach]
  omega

/-- A tree with few nodes needs little room. -/
theorem reach_le : t.reach passing ≤ (1 + passing) * t.child.count + 2 := by
  have hchild : t.child.reach passing ≤ (1 + passing) * t.child.depth + 1 := t.child.reach_le
  have hdepth : (1 + passing) * t.child.depth ≤ (1 + passing) * t.child.count :=
    Nat.mul_le_mul_left _ t.child.depth_le_count
  rw [reach]
  omega

/-- A tree that is too deep for a stack is not measured on it, and any other
is measured and checked as on a stack with room for everything. -/
theorem measuredOn_eq {stack : CallStack} {limits : Limits} :
    t.measuredOn stack limits
      = if stack.room < t.reach stack.passing then .error .stackExhausted
        else Except.mapError .fault do
          limits.checkNodes t.count
          limits.checkDepth t.depth
          return t := by
  have hshallow : t.reach 0 ≤ t.reach stack.passing := by
    have hlt : t.depth < t.reach stack.passing := depth_lt_reach
    rw [depth] at hlt
    rw [reach, Expr.reach_zero]
    omega
  have hcount : 1 + t.child.count = t.count := rfl
  have hdepth : 1 + t.child.depth = t.depth := rfl
  rw [measuredOn]
  simp only [measureWithin_eq, Expr.measure_add, Expr.measure_max, hcount, hdepth]
  by_cases hroom : stack.room < t.reach stack.passing
  · rw [if_pos hroom, if_pos hroom]
    rfl
  · -- Depths are compared with less pending, so what was counted is not too deep.
    rw [if_neg hroom, if_neg hroom, if_neg (by omega)]
    cases hnodes : limits.checkNodes t.count with
    | error fault => simp only [hnodes, bind, Except.bind, mapError_error]
    | ok _ =>
        cases hlevels : limits.checkDepth t.depth with
        | error fault =>
            simp only [hnodes, hlevels, bind, Except.bind, mapError_ok, mapError_error]
        | ok _ =>
            simp only [hnodes, hlevels, bind, Except.bind, pure, Except.pure, mapError_ok]

end Tree

end UnitCalc
