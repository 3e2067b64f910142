/-
What the built-in functions answer.

Given plain values, no fewer than a function requires, each of them answers a
float or refuses in its own name (`FunctionSymbol.Regular`). They never leave
the range of floats: what they round lies between finite floats, and what they
draw does too.

# Arguments and results

A function reads its arguments, computes, and makes a float of the result, and
there are lemmas for the first and the last of these. Reading gives a finite
float or a refusal (`Numeric.argument_answers`), and cutting one to a whole
number stays in the range. Then there is one lemma for each function that puts
them together, and `Numeric.regular_of_mem` collects these.

# Whatever the arguments

The second half asks for less and gets it for all arguments: what is answered,
if anything is, is a float and not a text or a truth value
(`Numeric.isNumber_of_mem`). That keeps calls from handing anything else to
operators, and `Proofs/Evaluation/Stranding` reckons with floats alone.
-/
import UnitCalc.Proofs.Binary.Range
import UnitCalc.Proofs.Unit.Total
import UnitCalc.Symbol.Numeric

namespace UnitCalc

/-- A function that computes plain values from plain ones, however the dice
fall, or reports an error. -/
def FunctionSymbol.Regular (f : FunctionSymbol) : Prop :=
  ∀ arguments : List Value, (∀ v ∈ arguments, v.Plain) → f.minArity ≤ arguments.length →
    ∀ (context : CallContext) (draws : Draws),
      Answers (fun kind => kind.ofEvaluation = true) Value.Plain
        ((f.implementation arguments context).run draws).1

namespace Numeric

variable {function : String} {index : Nat} {v : Value} {arguments : List Value}

-- ============================================================== arguments

/-- The number of a plain value is finite, or it is refused. -/
theorem ofValue_answers (h : v.Plain) :
    Answers (· = .builtin) (fun x => Binary.isFinite x = true) (ofValue function index v) := by
  have hfinite : ∀ x : Float, Answers (· = .builtin) (fun x => Binary.isFinite x = true)
      (if Binary.isFinite x then .ok x else .error (refuse function (.notFinite index v))) := by
    intro x
    by_cases hx : Binary.isFinite x = true
    · rw [if_pos hx]
      exact .ok hx
    · rw [if_neg hx]
      exact .reported rfl
  unfold ofValue
  cases v with
  | text s =>
      rw [Value.toFloat]
      cases hread : Decimal.read? s.toList with
      | none => exact .reported rfl
      | some x => exact hfinite x
  | number x => exact hfinite x
  | integer n => exact h.elim
  | truth b => exact h.elim
  | null => exact h.elim

theorem argument_answers (h : ∀ v ∈ arguments, v.Plain) :
    Answers (· = .builtin) (fun x => Binary.isFinite x = true)
      (argument function arguments index) := by
  unfold argument
  cases hv : arguments[index]? with
  | none => exact .reported rfl
  | some v => exact ofValue_answers (h v (List.mem_of_getElem? hv))

theorem wholeArgument_answers (h : ∀ v ∈ arguments, v.Plain) :
    Answers (· = .builtin) (fun n => n.natAbs ≤ Binary.greatest)
      (wholeArgument function arguments index) := by
  unfold wholeArgument
  refine (argument_answers h).bind fun x hx => ?_
  obtain ⟨⟨n, hn, hrange⟩, -, -⟩ := Binary.whole_parts hx
  refine .ok ?_
  rw [hn]
  exact hrange

/-- The number of a finite argument. -/
theorem argument_eq {x : Float} (hv : arguments[index]? = some v) (hread : v.toFloat = .ok x)
    (hfinite : Binary.isFinite x = true) : argument function arguments index = .ok x := by
  unfold argument ofValue
  rw [hv]
  dsimp only
  rw [hread]
  exact if_pos hfinite

/-- The numbers of several values, one for each. -/
theorem all_answers (h : ∀ v ∈ arguments, v.Plain) :
    Answers (· = .builtin) (fun xs => xs.length = arguments.length) (all function arguments) := by
  have hall : ∀ pairs : List (Value × Nat), (∀ pair ∈ pairs, pair.1.Plain) →
      Answers (· = .builtin) (fun xs : List Float => xs.length = pairs.length)
        (pairs.mapM fun pair => ofValue function pair.2 pair.1) := by
    intro pairs
    induction pairs with
    | nil =>
        intro _
        exact .ok rfl
    | cons pair pairs ih =>
        intro hplain
        rw [List.mapM_cons]
        refine (ofValue_answers (hplain pair List.mem_cons_self)).bind fun x _ => ?_
        refine (ih fun p hp => hplain p (List.mem_cons_of_mem pair hp)).bind fun xs hxs => ?_
        refine .ok ?_
        rw [List.length_cons, hxs, List.length_cons]
  have hpairs := hall arguments.zipIdx fun pair hpair => h pair.1 (List.fst_mem_of_mem_zipIdx hpair)
  rw [List.length_zipIdx] at hpairs
  exact hpairs

-- ================================================================ results

theorem ofInt_plain {n : Int} (h : n.natAbs ≤ Binary.greatest) :
    Answers (· = .builtin) Value.Plain (ofInt n) := by
  have hrange : n.natAbs ≤ Binary.greatest * 1 := by
    rw [Nat.mul_one]
    exact h
  obtain ⟨x, hx⟩ := Binary.nearest?_isSome (decide (n < 0)) Nat.one_pos hrange
  unfold ofInt Binary.ofInt?
  rw [hx]
  exact .ok trivial

theorem ofQuotient_plain {n : Int} {d : Nat} (hd : 0 < d) (h : n.natAbs ≤ Binary.greatest * d) :
    Answers (· = .builtin) Value.Plain (ofQuotient n d) := by
  obtain ⟨x, hx⟩ := Binary.nearest?_isSome (decide (n < 0)) hd h
  unfold ofQuotient Binary.ofQuotient?
  rw [hx]
  exact .ok trivial

-- =============================================================== rounding

theorem abs_answers (h : ∀ v ∈ arguments, v.Plain) :
    Answers (· = .builtin) Value.Plain (abs arguments) :=
  (argument_answers h).bind fun _ _ => .ok trivial

theorem floor_answers (h : ∀ v ∈ arguments, v.Plain) :
    Answers (· = .builtin) Value.Plain (floor arguments) := by
  refine (argument_answers h).bind fun x hx => ?_
  obtain ⟨-, ⟨n, hn, hrange⟩, -⟩ := Binary.whole_parts hx
  rw [hn]
  exact ofInt_plain hrange

theorem ceil_answers (h : ∀ v ∈ arguments, v.Plain) :
    Answers (· = .builtin) Value.Plain (ceil arguments) := by
  refine (argument_answers h).bind fun x hx => ?_
  obtain ⟨-, -, n, hn, hrange⟩ := Binary.whole_parts hx
  rw [hn]
  exact ofInt_plain hrange

theorem round_answers (h : ∀ v ∈ arguments, v.Plain) :
    Answers (· = .builtin) Value.Plain (round arguments) := by
  refine (argument_answers h).bind fun x _ => ?_
  by_cases hone : arguments.length ≤ 1
  · rw [if_pos hone]
    exact .ok trivial
  · rw [if_neg hone]
    exact (wholeArgument_answers h).bind fun _ _ => .ok trivial

/-- Of at least one number there is a least and a greatest. -/
theorem select_answers {before : Float → Float → Bool} (h : ∀ v ∈ arguments, v.Plain)
    (hsome : 1 ≤ arguments.length) :
    Answers (· = .builtin) Value.Plain (select function before arguments) := by
  refine (all_answers h).bind fun xs hxs => ?_
  -- There is a number for each value, and there is a value.
  cases xs with
  | nil =>
      rw [List.length_nil] at hxs
      omega
  | cons x xs => exact .ok trivial

-- ============================================================= randomness

theorem run_draw (low high : Int) (draws : Draws) :
    (draw low high).run draws = (.ok (draws.dice.pick draws.made.length low high),
      { draws with made := draws.made ++ [(low, high)] }) :=
  rfl

theorem run_lift {α : Type} (answer : Except Fault α) (draws : Draws) :
    (liftM answer : Drawing α).run draws = (answer, draws) :=
  rfl

/-- A fraction drawn between zero and a whole number in the range. -/
theorem drawFraction_answers {bound : Int} (hlow : 0 ≤ bound)
    (hrange : bound.natAbs ≤ Binary.greatest) (draws : Draws) :
    Answers (· = .builtin) Value.Plain
      ((do let n ← draw 0 (bound * steps); ofQuotient n steps : Drawing Value).run draws).1 := by
  rw [run_bind_ok (run_draw 0 (bound * steps) draws), run_lift]
  have hbound : 0 ≤ bound * (steps : Int) := Int.mul_nonneg hlow (by decide)
  obtain ⟨hleast, hmost⟩ := draws.dice.within draws.made.length 0 (bound * steps) hbound
  -- A bound of zero draws zero, so the range may be a single number.
  have hdrawn : (draws.dice.pick draws.made.length 0 (bound * steps)).natAbs
      ≤ (bound * steps).natAbs := by
    omega
  rw [Int.natAbs_mul, Int.natAbs_natCast] at hdrawn
  exact ofQuotient_plain (by decide) (Nat.le_trans hdrawn (Nat.mul_le_mul_right steps hrange))

/-- A whole number drawn between two others in the range. -/
theorem drawBetween_answers {low high : Int} (hle : low ≤ high)
    (hlow : low.natAbs ≤ Binary.greatest) (hhigh : high.natAbs ≤ Binary.greatest)
    (draws : Draws) :
    Answers (· = .builtin) Value.Plain
      ((do let n ← draw low high; ofInt n : Drawing Value).run draws).1 := by
  rw [run_bind_ok (run_draw low high draws), run_lift]
  obtain ⟨hleast, hmost⟩ := draws.dice.within draws.made.length low high hle
  exact ofInt_plain (by omega)

theorem rand_answers (h : ∀ v ∈ arguments, v.Plain) (draws : Draws) :
    Answers (· = .builtin) Value.Plain ((rand arguments).run draws).1 := by
  have hwhole := @wholeArgument_answers "rand" 0 arguments h
  unfold rand
  by_cases hempty : arguments.isEmpty = true
  · rw [if_pos hempty]
    exact drawFraction_answers (show 0 ≤ (1 : Int) by decide) Binary.greatest_pos draws
  · rw [if_neg hempty]
    -- What matters of the first bound is that it was refused or lies in the range.
    generalize wholeArgument "rand" arguments 0 = answer at hwhole
    cases hwhole with
    | reported hkind => exact .reported hkind
    | @ok first hfirst =>
        rw [run_bind_ok (run_lift (.ok first) draws)]
        by_cases hone : arguments.length = 1
        · rw [if_pos hone]
          by_cases hnegative : first < 0
          · rw [if_pos hnegative]
            exact .reported rfl
          · rw [if_neg hnegative]
            exact drawFraction_answers (Int.not_lt.1 hnegative) hfirst draws
        · rw [if_neg hone]
          have hother := @wholeArgument_answers "rand" 1 arguments h
          generalize wholeArgument "rand" arguments 1 = answer at hother
          cases hother with
          | reported hkind => exact .reported hkind
          | @ok second hsecond =>
              rw [run_bind_ok (run_lift (.ok second) draws)]
              by_cases hreversed : second < first
              · rw [if_pos hreversed]
                exact .reported rfl
              · rw [if_neg hreversed]
                exact drawBetween_answers (Int.not_lt.1 hreversed) hfirst hsecond draws

-- ============================================================ the symbols

/-- The built-in functions compute plain values from plain ones. -/
theorem regular_of_mem {f : FunctionSymbol} (hf : f ∈ functions) : f.Regular := by
  intro arguments hplain harity context draws
  have hkinds : ∀ kind, kind = ErrorKind.builtin → kind.ofEvaluation = true := by
    rintro kind rfl
    rfl
  unfold functions at hf
  simp only [List.mem_cons, List.not_mem_nil, or_false] at hf
  rcases hf with rfl | rfl | rfl | rfl | rfl | rfl | rfl
  · exact (rand_answers hplain draws).weaken hkinds fun _ h => h
  · exact (abs_answers hplain).weaken hkinds fun _ h => h
  · exact (floor_answers hplain).weaken hkinds fun _ h => h
  · exact (ceil_answers hplain).weaken hkinds fun _ h => h
  · exact (round_answers hplain).weaken hkinds fun _ h => h
  · exact (select_answers hplain harity).weaken hkinds fun _ h => h
  · exact (select_answers hplain harity).weaken hkinds fun _ h => h

/-- Built-in functions do not look at their calls. -/
theorem implementation_of_mem {f : FunctionSymbol} (hf : f ∈ functions)
    (arguments : List Value) (context context' : CallContext) :
    f.implementation arguments context = f.implementation arguments context' := by
  unfold functions at hf
  simp only [List.mem_cons, List.not_mem_nil, or_false] at hf
  rcases hf with rfl | rfl | rfl | rfl | rfl | rfl | rfl <;> rfl

-- ================================================================== numbers

/-- An answer that is a float, if it is any. -/
def IsNumber (answer : Except Fault Value) : Prop :=
  ∀ v, answer = .ok v → ∃ x, v = .number x

theorem isNumber_ofInt (n : Int) : IsNumber (ofInt n) := by
  intro v hv
  unfold ofInt at hv
  split at hv
  · exact ⟨_, (Except.ok.inj hv).symm⟩
  · cases hv

theorem isNumber_ofQuotient (n : Int) (d : Nat) : IsNumber (ofQuotient n d) := by
  intro v hv
  unfold ofQuotient at hv
  split at hv
  · exact ⟨_, (Except.ok.inj hv).symm⟩
  · cases hv

theorem isNumber_bind {α : Type} {answer : Except Fault α} {f : α → Except Fault Value}
    (hf : ∀ a, IsNumber (f a)) : IsNumber (answer >>= f) := by
  intro v hv
  obtain ⟨a, -, hv⟩ := bind_eq_ok.1 hv
  exact hf a v hv

theorem isNumber_pure (x : Float) : IsNumber (pure (.number x)) :=
  fun _ hv => ⟨x, (pure_eq_ok.1 hv).symm⟩

theorem isNumber_select (before : Float → Float → Bool) (arguments : List Value) :
    IsNumber (select function before arguments) := by
  refine isNumber_bind fun xs => ?_
  cases xs with
  | nil =>
      intro v hv
      cases hv
  | cons x xs => exact isNumber_pure _

theorem isNumber_round (arguments : List Value) : IsNumber (round arguments) := by
  refine isNumber_bind fun x => ?_
  by_cases hone : arguments.length ≤ 1
  · rw [if_pos hone]
    exact isNumber_pure _
  · rw [if_neg hone]
    exact isNumber_bind fun places => isNumber_pure _

theorem isNumber_drawing {α : Type} (act : Drawing α) {f : α → Drawing Value}
    (hf : ∀ a draws, IsNumber ((f a).run draws).1) (draws : Draws) :
    IsNumber ((act >>= f).run draws).1 := by
  rcases hact : act.run draws with ⟨answer, after⟩
  cases answer with
  | error fault =>
      rw [run_bind_error hact]
      nofun
  | ok a =>
      rw [run_bind_ok hact]
      exact hf a after

theorem isNumber_rand (arguments : List Value) (draws : Draws) :
    IsNumber ((rand arguments).run draws).1 := by
  unfold rand
  by_cases hempty : arguments.isEmpty = true
  · rw [if_pos hempty]
    refine isNumber_drawing _ (fun n _ => ?_) draws
    exact isNumber_ofQuotient n steps
  · rw [if_neg hempty]
    refine isNumber_drawing _ (fun first draws => ?_) draws
    by_cases hone : arguments.length = 1
    · rw [if_pos hone]
      by_cases hnegative : first < 0
      · rw [if_pos hnegative]
        nofun
      · rw [if_neg hnegative]
        refine isNumber_drawing _ (fun n _ => ?_) draws
        exact isNumber_ofQuotient n steps
    · rw [if_neg hone]
      refine isNumber_drawing _ (fun second draws => ?_) draws
      by_cases hreversed : second < first
      · rw [if_pos hreversed]
        nofun
      · rw [if_neg hreversed]
        refine isNumber_drawing _ (fun n _ => ?_) draws
        exact isNumber_ofInt n

/-- The built-in functions answer floats, whatever they are given. -/
theorem isNumber_of_mem {f : FunctionSymbol} (hf : f ∈ functions) (arguments : List Value)
    (context : CallContext) (draws : Draws) :
    IsNumber ((f.implementation arguments context).run draws).1 := by
  unfold functions at hf
  simp only [List.mem_cons, List.not_mem_nil, or_false] at hf
  rcases hf with rfl | rfl | rfl | rfl | rfl | rfl | rfl
  · exact isNumber_rand arguments draws
  · exact isNumber_bind fun x => isNumber_pure x.abs
  · exact isNumber_bind fun x => isNumber_ofInt _
  · exact isNumber_bind fun x => isNumber_ofInt _
  · exact isNumber_round arguments
  · exact isNumber_select _ arguments
  · exact isNumber_select _ arguments

end Numeric

end UnitCalc
