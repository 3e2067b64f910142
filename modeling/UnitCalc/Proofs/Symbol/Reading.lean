/-
Whether the built-in functions read the numbers that their parameters accept.

A parameter accepts a numeral with blanks around it, and a function reads one
with spacing around it. The information separators are blanks and no spacing,
so a text with one of them is not read (`Decimal.read?_of_separator`). Every
other accepted value is read as the number into which it is split
(`Numeric.ofValue_accepted`).

# Texts

Where there are no separators, blanks and spacing are the same, so trimming
the one is trimming the other, and what is left is the numeral
(`Decimal.read?_trim`). Where there is one, it is in the text that is looked
at, however that is trimmed, and neither a numeral nor a name has it. The
underscores that are taken out before make no difference to that.

# Calls

What a built-in function answers rests on reading all of its arguments, from
the first to the last (`Numeric.restsOn_of_mem`), so the first argument that
is not read decides what is refused. `Numeric.RestsOn` says of a computation
that it fails with the reading or else refuses nothing as no number, and it
goes along with the binds of the implementations.
-/
import UnitCalc.Proofs.Evaluation.Filling
import UnitCalc.Proofs.Quantity.Splitting
import UnitCalc.Proofs.Symbol.Builtins

namespace UnitCalc

open Text

variable {c : Char} {cs : List Char}

-- =============================================================== separators

/-- Whether a character is an information separator. -/
def IsSeparator (c : Char) : Prop :=
  c.toNat ∈ separatorPoints

/-- There are four of them. -/
instance : DecidablePred IsSeparator :=
  fun c => inferInstanceAs (Decidable (c.toNat ∈ separatorPoints))

/-- What holds of each of the four. -/
theorem of_isSeparator {p : Char → Prop} [DecidablePred p] (h : IsSeparator c)
    (hall : separatorPoints.all (fun n => decide (p (Char.ofNat n))) = true) : p c := by
  rw [← Char.ofNat_toNat c]
  exact of_decide_eq_true (List.all_eq_true.1 hall c.toNat h)

/-- Blanks other than the separators are spacing. -/
theorem isSpacing_eq_isBlank (h : ¬ IsSeparator c) : isSpacing c = isBlank c := by
  unfold IsSeparator at h
  simp [isBlank, h]

-- =================================================================== the texts

namespace Decimal

/-- Removing underscores leaves the other characters. -/
theorem mem_joinDigits? (hc : c ≠ '_') {afterDigit : Bool} {ds : List Char} (h : c ∈ cs)
    (hjoin : joinDigits? afterDigit cs = some ds) : c ∈ ds := by
  fun_induction joinDigits? afterDigit cs generalizing ds with
  | case1 => cases h
  | case2 afterDigit next rest hdigits ih => exact ih (List.mem_of_ne_of_mem hc h) hjoin
  | case3 => cases hjoin
  | case4 => cases hjoin
  | case5 afterDigit d rest hother ih =>
      obtain ⟨es, hes, rfl⟩ := Option.map_eq_some_iff.1 hjoin
      rcases List.mem_cons.1 h with rfl | hmem
      · exact List.mem_cons_self
      · exact List.mem_cons_of_mem d (ih hmem hes)

/-- No numeral has a separator in it. -/
theorem numeral?_of_separator (hc : IsSeparator c) (h : c ∈ cs) : numeral? cs = none := by
  unfold numeral?
  split
  · next n hread =>
      obtain ⟨taken, hcut, hwritten⟩ := Numeral.longest?_written hread
      rw [List.append_nil] at hcut
      have hblank := (hwritten.plain c (hcut ▸ h)).1
      rw [of_isSeparator (p := fun c => isBlank c = true) hc (by decide)] at hblank
      cases hblank
  · rfl

/-- No name has one. -/
theorem named?_of_separator (hc : IsSeparator c) (h : c ∈ cs) : named? cs = none := by
  have hsign : c ∉ ['+', '-'] := of_isSeparator (p := fun c => c ∉ ['+', '-']) hc (by decide)
  have hlower : c.toLower = c := of_isSeparator (p := fun c => c.toLower = c) hc (by decide)
  obtain ⟨s, hs, hparts, -⟩ := Numeral.takeSign_written cs
  have hname : c ∈ lowerCase (Numeral.takeSign cs).2 := by
    rw [hparts, List.mem_append] at h
    have hsigns : s ⊆ ['+', '-'] := by
      cases hs <;> simp
    exact List.mem_map.2 ⟨c, h.resolve_left fun hmem => hsign (hsigns hmem), hlower⟩
  have hletters := of_isSeparator
    (p := fun c => c ∉ "inf".toList ∧ c ∉ "infinity".toList ∧ c ∉ "nan".toList) hc (by decide)
  unfold named?
  dsimp only
  rw [if_neg, if_neg]
  · exact fun hnan => hletters.2.2 (hnan ▸ hname)
  · exact fun hinfinite => hinfinite.elim (fun heq => hletters.1 (heq ▸ hname))
      fun heq => hletters.2.1 (heq ▸ hname)

/-- A text with a separator in it is not read. -/
theorem read?_of_separator (hc : IsSeparator c) (h : c ∈ cs) : read? cs = none := by
  have hspacing := of_isSeparator (p := fun c => isSpacing c = false) hc (by decide)
  have hunderscore := of_isSeparator (p := fun c => c ≠ '_') hc (by decide)
  unfold read?
  cases hjoin : joinDigits? false (trimBy isSpacing cs) with
  | none => rfl
  | some ds =>
      have hmem := mem_joinDigits? hunderscore (mem_trimBy hspacing h) hjoin
      rw [Option.bind_some]
      unfold plain?
      rw [numeral?_of_separator hc hmem, named?_of_separator hc hmem]

/-- Without one, what is trimmed is read. -/
theorem read?_trim (h : ∀ c ∈ cs, ¬ IsSeparator c) : read? cs = read? (trim cs) := by
  have hsame : ∀ c ∈ cs, isSpacing c = isBlank c := fun c hc => isSpacing_eq_isBlank (h c hc)
  have hkept : trimBy isSpacing (trim cs) = trim cs := by
    have hmem : ∀ c ∈ trim cs, isSpacing c = isBlank c := fun c hc =>
      hsame c ((List.dropWhile_suffix isBlank).mem ((trim_prefix_trimStart cs).mem hc))
    rw [trimBy_congr hmem]
    exact trim_trim cs
  unfold read?
  rw [trimBy_congr hsame, hkept]
  rfl

end Decimal

-- =================================================================== the values

namespace Value

/-- A text with an information separator in it. -/
def Separated : Value → Prop
  | text s => ∃ c ∈ s.toList, IsSeparator c
  | _ => False

/-- Only the characters of texts are looked at. -/
instance : DecidablePred Separated
  | text s => List.decidableBEx IsSeparator s.toList
  | number _ => inferInstanceAs (Decidable False)
  | integer _ => inferInstanceAs (Decidable False)
  | truth _ => inferInstanceAs (Decidable False)
  | null => inferInstanceAs (Decidable False)

/-- An accepted value is split into its number, and that number is read off it
unless it is separated. -/
theorem split?_accepted {v : Value} (h : v.isNumeric = .ok true) :
    ∃ x, v.split? = .ok (some ⟨x, ""⟩)
      ∧ v.toFloat = if v.Separated then .error (.unreadableNumber v) else .ok x := by
  cases v with
  | text s =>
      obtain ⟨numeral, hwritten⟩ := Quantity.isNumberText_iff_isText.1 (Except.ok.inj h)
      have hsplit : Quantity.split? s.toList = some (numeral, []) := by
        obtain ⟨lead, trail, hparts, hlead, htrail, -⟩ := trim_parts s.toList
        rw [hparts, List.append_assoc]
        exact Quantity.split?_between hwritten (List.all_eq_true.2 hlead)
          (List.all_eq_true.2 htrail)
      refine ⟨numeral.toFloat, ?_, ?_⟩
      · rw [split?, Quantity.read?, hsplit]
        rfl
      · rw [toFloat]
        -- Blanks do not matter to how it is split, but a separator does to how it is read.
        by_cases hseparated : (text s).Separated
        · obtain ⟨c, hmem, hc⟩ := hseparated
          rw [Decimal.read?_of_separator hc hmem]
          exact (if_pos ⟨c, hmem, hc⟩).symm
        · have hclear : ∀ c ∈ s.toList, ¬ IsSeparator c := fun c hmem hc =>
            hseparated ⟨c, hmem, hc⟩
          rw [Decimal.read?_trim hclear, Decimal.read?_of_writtenAs hwritten, if_neg hseparated]
  | number x => exact ⟨x, rfl, rfl⟩
  | integer n =>
      rw [isNumeric] at h
      rw [split?, toFloat]
      cases hx : Binary.ofInt? n with
      | none => simp [hx] at h
      | some x => exact ⟨x, rfl, rfl⟩
  | truth b => cases h
  | null => cases h

end Value

namespace Numeric

variable {function : String} {index : Nat} {v : Value} {vs : List Value} {f : FunctionSymbol}
  {fault : Fault}

/-- An accepted value is split into its number. A function refuses it as no
number if it is separated, and as not finite if its number is not. Otherwise it
takes that number. -/
theorem ofValue_accepted (h : v.isNumeric = .ok true) (function : String) (index : Nat) :
    ∃ x, v.split? = .ok (some ⟨x, ""⟩)
      ∧ ofValue function index v =
        if v.Separated then .error (refuse function (.notANumber index v))
        else if Binary.isFinite x then .ok x
        else .error (refuse function (.notFinite index v)) := by
  obtain ⟨x, hsplit, hread⟩ := Value.split?_accepted h
  refine ⟨x, hsplit, ?_⟩
  unfold ofValue
  rw [hread]
  by_cases hseparated : v.Separated
  · rw [if_pos hseparated, if_pos hseparated]
  · rw [if_neg hseparated, if_neg hseparated]

-- ================================================================ the arguments

/-- What fails in a list is the first thing to fail. -/
theorem mapM_eq_error_iff {α β : Type} {f : α → Except Fault β} {l : List α} :
    l.mapM f = .error fault
      ↔ ∃ k, ∃ hk : k < l.length, f l[k] = .error fault
        ∧ ∀ i (hi : i < k), ∃ b, f l[i] = .ok b := by
  induction l with
  | nil =>
      refine iff_of_false (fun h => by cases h) ?_
      rintro ⟨k, hk, -⟩
      exact absurd hk (Nat.not_lt_zero k)
  | cons a l ih =>
      rw [List.mapM_cons]
      -- The first that fails is the head, or the head is fine and it is one of the others.
      cases ha : f a with
      | error first =>
          show Except.error first = .error fault ↔ _
          rw [Except.error.injEq]
          constructor
          · rintro rfl
            exact ⟨0, Nat.succ_pos _, ha, fun i hi => absurd hi (Nat.not_lt_zero i)⟩
          · rintro ⟨k, hk, hfails, hbefore⟩
            cases k with
            | zero => exact Except.error.inj (ha.symm.trans hfails)
            | succ k =>
                obtain ⟨b, hb⟩ := hbefore 0 (Nat.succ_pos k)
                cases ha.symm.trans hb
      | ok b =>
          have hrest : (Except.ok b >>= fun b => l.mapM f >>= fun bs => pure (b :: bs))
              = Except.error fault ↔ l.mapM f = .error fault := by
            cases l.mapM f with
            | error other => exact Iff.rfl
            | ok bs => exact iff_of_false (fun h => by cases h) fun h => by cases h
          rw [hrest, ih]
          constructor
          · rintro ⟨k, hk, hfails, hbefore⟩
            refine ⟨k + 1, Nat.succ_lt_succ hk, hfails, fun i hi => ?_⟩
            cases i with
            | zero => exact ⟨b, ha⟩
            | succ i => exact hbefore i (Nat.lt_of_succ_lt_succ hi)
          · rintro ⟨k, hk, hfails, hbefore⟩
            cases k with
            | zero => cases ha.symm.trans hfails
            | succ k =>
                exact ⟨k, Nat.lt_of_succ_lt_succ hk, hfails, fun i hi =>
                  hbefore (i + 1) (Nat.succ_lt_succ hi)⟩

/-- The first argument that is not read is refused. -/
theorem all_eq_error_iff :
    all function vs = .error fault
      ↔ ∃ k, ∃ hk : k < vs.length, ofValue function k vs[k] = .error fault
        ∧ ∀ i (hi : i < k), ∃ x, ofValue function i vs[i] = .ok x := by
  unfold all
  rw [mapM_eq_error_iff]
  simp only [List.length_zipIdx, List.getElem_zipIdx, Nat.zero_add]

theorem all_one (function : String) (v : Value) :
    all function [v] = ofValue function 0 v >>= fun x => pure [x] := by
  simp [all]

theorem all_two (function : String) (v w : Value) :
    all function [v, w] = ofValue function 0 v >>= fun x => ofValue function 1 w >>= fun y =>
      pure [x, y] := by
  simp [all]

-- ================================================================ the functions

/-- An answer that refuses no argument as no number. -/
def Unrefusing (function : String) (answer : Except Fault Value) : Prop :=
  ∀ index v, answer ≠ .error (refuse function (.notANumber index v))

theorem unrefusing_number (function : String) (x : Float) :
    Unrefusing function (.ok (.number x)) := by
  rintro index v ⟨⟩

theorem unrefusing_ofInt (function : String) (n : Int) : Unrefusing function (ofInt n) := by
  intro index v
  unfold ofInt
  split <;> rintro ⟨⟩

theorem unrefusing_ofQuotient (function : String) (n : Int) (d : Nat) :
    Unrefusing function (ofQuotient n d) := by
  intro index v
  unfold ofQuotient
  split <;> rintro ⟨⟩

/-- An answer that rests on reading arguments: it fails with the reading, and
with what is read nothing is refused as no number. -/
inductive RestsOn {α : Type} (function : String) : Except Fault α → Except Fault Value → Prop
  | unread (fault : Fault) : RestsOn function (.error fault) (.error fault)
  | read {x : α} {answer : Except Fault Value} (unrefusing : Unrefusing function answer) :
      RestsOn function (.ok x) answer

/-- Two that read the same and then go on together. -/
theorem RestsOn.bind {α β : Type} {reading : Except Fault α} {more : α → Except Fault β}
    {compute : α → Except Fault Value} (h : ∀ x, RestsOn function (more x) (compute x)) :
    RestsOn function (reading >>= more) (reading >>= compute) := by
  cases reading with
  | error fault => exact .unread fault
  | ok x => exact h x

/-- The same where the whole part of an argument is needed. -/
theorem restsOn_whole {β : Type} {more : Float → Except Fault β} {compute : Int → Drawing Value}
    {draws : Draws} (hv : vs[index]? = some v)
    (h : ∀ x n, RestsOn function (more x) ((compute n).run draws).1) :
    RestsOn function (ofValue function index v >>= more)
      (((liftM (wholeArgument function vs index) : Drawing Int) >>= compute).run draws).1 := by
  unfold wholeArgument argument
  rw [hv]
  dsimp only
  cases ofValue function index v with
  | error fault => exact .unread fault
  | ok x => exact h x _

/-- What is computed from one argument rests on it. -/
theorem restsOn_one {compute : Float → Except Fault Value}
    (h : ∀ x, Unrefusing function (compute x)) (v : Value) :
    RestsOn function (all function [v]) (argument function [v] 0 >>= compute) := by
  rw [all_one]
  exact .bind fun x => .read (h x)

theorem restsOn_round (hcount : 1 ≤ vs.length ∧ vs.length ≤ 2) :
    RestsOn "round" (all "round" vs) (round vs) := by
  match vs, hcount with
  | [v], _ => exact restsOn_one (fun x => unrefusing_number "round" _) v
  | [v, w], _ =>
      have htwo : ¬ [v, w].length ≤ 1 := Nat.not_succ_le_self 1
      have hwhole : wholeArgument "round" [v, w] 1
          = ofValue "round" 1 w >>= fun y => pure ((Binary.ofFloat y).truncate?.getD 0) := rfl
      rw [all_two]
      refine .bind fun x => ?_
      rw [if_neg htwo, hwhole, bind_assoc]
      exact .bind fun y => .read (unrefusing_number "round" _)

theorem restsOn_rand (hcount : vs.length ≤ 2) (draws : Draws) :
    RestsOn "rand" (all "rand" vs) ((rand vs).run draws).1 := by
  match vs, hcount with
  | [], _ => exact .read (unrefusing_ofQuotient "rand" _ _)
  | [v], _ =>
      have hsome : ¬ [v].isEmpty = true := Bool.false_ne_true
      rw [all_one, rand, if_neg hsome]
      refine restsOn_whole rfl fun x n => .read ?_
      rw [if_pos List.length_singleton]
      by_cases hnegative : n < 0
      · rw [if_pos hnegative]
        rintro index v ⟨⟩
      · rw [if_neg hnegative]
        exact unrefusing_ofQuotient "rand" _ _
  | [v, w], _ =>
      have hsome : ¬ [v, w].isEmpty = true := Bool.false_ne_true
      have htwo : ¬ [v, w].length = 1 := Nat.succ_succ_ne_one 0
      rw [all_two, rand, if_neg hsome]
      refine restsOn_whole rfl fun x low => ?_
      rw [if_neg htwo]
      refine restsOn_whole rfl fun y high => .read ?_
      by_cases hreversed : high < low
      · rw [if_pos hreversed]
        rintro index v ⟨⟩
      · rw [if_neg hreversed]
        exact unrefusing_ofInt "rand" _

theorem restsOn_select {before : Float → Float → Bool} :
    RestsOn function (all function vs) (select function before vs) := by
  have hall : all function vs = all function vs >>= pure := (bind_pure _).symm
  rw [hall]
  refine .bind fun xs => .read ?_
  cases xs with
  | nil => rintro index v ⟨⟩
  | cons x xs => exact unrefusing_number function _

/-- The built-in functions read all of their arguments first. -/
theorem restsOn_of_mem (hf : f ∈ functions) (hcount : f.Accommodates vs.length)
    (context : CallContext) (draws : Draws) :
    RestsOn f.name (all f.name vs) ((f.implementation vs context).run draws).1 := by
  have hone : 1 ≤ vs.length ∧ vs.length ≤ 1 → ∃ v, vs = [v] := fun h =>
    List.length_eq_one_iff.1 (Nat.le_antisymm h.2 h.1)
  unfold functions at hf
  simp only [List.mem_cons, List.not_mem_nil, or_false] at hf
  rcases hf with rfl | rfl | rfl | rfl | rfl | rfl | rfl
  · exact restsOn_rand hcount.2 draws
  · obtain ⟨v, rfl⟩ := hone hcount
    exact restsOn_one (fun x => unrefusing_number "abs" _) v
  · obtain ⟨v, rfl⟩ := hone hcount
    exact restsOn_one (fun x => unrefusing_ofInt "floor" _) v
  · obtain ⟨v, rfl⟩ := hone hcount
    exact restsOn_one (fun x => unrefusing_ofInt "ceil" _) v
  · exact restsOn_round hcount
  · exact restsOn_select
  · exact restsOn_select

/-- What is refused as no number is the first argument that is not read, if it
is separated. -/
theorem RestsOn.refused_iff {answer : Except Fault Value}
    (h : RestsOn function (all function vs) answer)
    (haccepted : ∀ v ∈ vs, v.isNumeric = .ok true) :
    answer = .error (refuse function (.notANumber index v))
      ↔ ∃ hk : index < vs.length, vs[index] = v ∧ v.Separated
        ∧ ∀ i (hi : i < index), ∃ x, ofValue function i vs[i] = .ok x := by
  -- If the arguments are read the function refuses none, so only the reading is left.
  have hsame : answer = .error (refuse function (.notANumber index v))
      ↔ all function vs = .error (refuse function (.notANumber index v)) := by
    generalize all function vs = reading at h
    cases h with
    | unread fault => simp
    | read hnever => exact iff_of_false (hnever index v) fun h => by cases h
  rw [hsame, all_eq_error_iff]
  constructor
  · rintro ⟨k, hk, hfails, hbefore⟩
    obtain ⟨x, -, hread⟩ := ofValue_accepted (haccepted _ (List.getElem_mem hk)) function k
    rw [hread] at hfails
    split at hfails
    · next hseparated =>
        cases hfails
        exact ⟨hk, rfl, hseparated, hbefore⟩
    · split at hfails
      · cases hfails
      · cases hfails
  · rintro ⟨hk, rfl, hseparated, hbefore⟩
    obtain ⟨x, -, hread⟩ := ofValue_accepted (haccepted _ (List.getElem_mem hk)) function index
    rw [if_pos hseparated] at hread
    exact ⟨index, hk, hread, hbefore⟩

-- ==================================================================== the calls

theorem numeric_of_mem (hf : f ∈ functions) :
    ∀ parameter ∈ f.parameters, parameter.type = Parameter.numeric := by
  unfold functions at hf
  simp only [List.mem_cons, List.not_mem_nil, or_false] at hf
  rcases hf with rfl | rfl | rfl | rfl | rfl | rfl | rfl <;> decide

variable {env : Environment} {es : List Expr} {position : Nat} {p q : Progress}

/-- The arguments of a built-in function are plain numbers when it is invoked. -/
theorem accepted_of_invokes (hnumeric : env.validators.get? Parameter.numeric = some .numeric)
    (hf : f ∈ functions) (h : Expr.Invokes env f es position p vs q) :
    ∀ v ∈ vs, v.isNumeric = .ok true := by
  intro v hv
  obtain ⟨i, hi, rfl⟩ := List.getElem_of_mem hv
  obtain ⟨parameter, hdeclared, hadmitted⟩ := h.taken.2.admits.2 i hi
  refine hadmitted .numeric ?_
  rw [numeric_of_mem hf parameter (List.mem_of_getElem? hdeclared)]
  exact hnumeric

/-- A call answers what its implementation does. -/
theorem answer_of_invokes (h : Expr.Invokes env f es position p vs q) :
    (((Expr.call f es position).evaluate env).run p).1
      = ((f.implementation vs (env.callContext position)).run q.journal.draws).1 := by
  obtain ⟨answer, draws, hanswer⟩ : ∃ answer draws,
      (f.implementation vs (env.callContext position)).run q.journal.draws = (answer, draws) :=
    ⟨_, _, rfl⟩
  rw [h f.implementation]
  unfold Progress.invoked
  rw [hanswer]
  cases answer <;> rfl

/-- The built-in functions read the number of an accepted value, or refuse it as
not finite, unless it is separated, and then they refuse it as no number. In a
call this happens to the first argument that is not read. -/
theorem accepted_read (hnumeric : env.validators.get? Parameter.numeric = some .numeric) :
    (∀ v : Value, v.isNumeric = .ok true → ∀ function index, ∃ x, v.split? = .ok (some ⟨x, ""⟩)
        ∧ ofValue function index v =
          if v.Separated then .error (refuse function (.notANumber index v))
          else if Binary.isFinite x then .ok x
          else .error (refuse function (.notFinite index v)))
      ∧ ∀ f ∈ functions, ∀ es position p vs q, Expr.Invokes env f es position p vs q →
        ∀ index v, (((Expr.call f es position).evaluate env).run p).1
            = .error (refuse f.name (.notANumber index v))
          ↔ ∃ h : index < vs.length, vs[index] = v ∧ v.Separated
            ∧ ∀ i (hi : i < index), ∃ x, ofValue f.name i vs[i] = .ok x := by
  refine ⟨fun v => ofValue_accepted, fun f hf es position p vs q h index v => ?_⟩
  have hcount : f.Accommodates vs.length := by
    rw [h.taken.2.admits.1]
    exact h.taken.1
  rw [answer_of_invokes h]
  exact (restsOn_of_mem hf hcount _ _).refused_iff (accepted_of_invokes hnumeric hf h)

/-- A number between blanks that are no separators is read, alone and in a
call. -/
theorem accepted_read_spaced :
    (Value.text "\u00A05\t").isNumeric = .ok true
      ∧ ofValue "abs" 0 (.text "\u00A05\t") = .ok 5.0
      ∧ ∀ index v, (((Expr.call ⟨"abs", deterministic abs, [{}], false⟩
            [.literal "\u00A05\t" 4] 0).evaluate
          ((Calculator.of .standard none {}).environment "abs(\u00A05\t)")).run Expr.dealt).1
        ≠ .error (refuse "abs" (.notANumber index v)) := by
  have haccepted : (Value.text "\u00A05\t").isNumeric = .ok true := by decide +kernel
  have hspaced : ¬ (Value.text "\u00A05\t").Separated := by decide
  obtain ⟨hvalues, hcalls⟩ := @accepted_read
    ((Calculator.of .standard none {}).environment "abs(\u00A05\t)") rfl
  refine ⟨haccepted, ?_, fun index v hrefused => ?_⟩
  · obtain ⟨x, hsplit, hread⟩ := hvalues (.text "\u00A05\t") haccepted "abs" 0
    have hfive : (Value.text "\u00A05\t").split? = .ok (some ⟨5.0, ""⟩) := by decide +kernel
    obtain rfl : (5.0 : Float) = x := by
      cases hfive.symm.trans hsplit
      rfl
    rw [hread, if_neg hspaced, if_pos (by decide +kernel)]
  · have hadmits : ((Calculator.of .standard none {}).environment "abs(\u00A05\t)").Admits {}
        (.text "\u00A05\t") := by
      intro validator hvalidator
      cases hvalidator
      exact haccepted
    have hinvokes : Expr.Invokes ((Calculator.of .standard none {}).environment "abs(\u00A05\t)")
        ⟨"abs", deterministic abs, [{}], false⟩ [.literal "\u00A05\t" 4] 0 Expr.dealt
        [.text "\u00A05\t"] _ :=
      (Expr.invokes_iff rfl).2 ⟨⟨by decide, by decide⟩, .next .none rfl rfl rfl hadmits⟩
    obtain ⟨hindex, rfl, hseparated, -⟩ :=
      (hcalls _ (.tail _ (.head _)) _ _ _ _ _ hinvokes index v).1 hrefused
    obtain rfl : index = 0 := Nat.lt_one_iff.1 hindex
    exact hspaced hseparated

/-- A function that answers a number behind a separator. -/
def separating : FunctionSymbol :=
  { name := "g", implementation := Implementation.constant (.text "\x1c5") }

/-- A number behind a separator is accepted and computed with, but the built-in
functions refuse it. -/
theorem separated_refused :
    (Value.text "\x1c5").isNumeric = .ok true
      ∧ (Value.text "\x1c5").split? = .ok (some ⟨5.0, ""⟩)
      ∧ ofValue "abs" 0 (.text "\x1c5") = .error (refuse "abs" (.notANumber 0 (.text "\x1c5")))
      ∧ (((Calculator.of (SymbolTable.standard.addFunction separating) none {}).demand
          "g() + 1").run { journal := { draws := { dice := .lowest } } }).1 = .ok (.number 6.0)
      ∧ (((Calculator.of (SymbolTable.standard.addFunction separating) none {}).demand
          "abs(g())").run { journal := { draws := { dice := .lowest } } }).1
        = .error (refuse "abs" (.notANumber 0 (.text "\x1c5"))) := by
  decide +kernel

end Numeric

end UnitCalc
