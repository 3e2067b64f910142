/-
Sums of as many ones as one likes.

`1+1+…+1` with `n` signs is `2 * n + 1` characters long, and since a sum
associates to the left its tree is `n + 1` levels deep below the root. The
length of a source is limited before it is cut, the depth of its tree only
after it has been measured; so these sums are the sources that bring a stack
to its end first (`Tree.built_sum`).

# The scan

The scan goes from one summand to the next. Behind each it collects the digit
that it came to, and what it would be cut into if it ended there reads as the
sum so far (`Scan.Summed`). A sign and a digit lead from one such place to the
next: behind a collected digit the sign is neither that of a number nor that
of an exponent nor a unit, so it is emitted, and behind it a number begins.
The reading grows at its end, as the tree does: the new sign takes the whole
sum so far as its left operand. The induction is on the signs that are left,
from wherever the scan is.
-/
import UnitCalc.Proofs.Expr.Measured
import UnitCalc.Proofs.Parsing.Complete
import UnitCalc.Proofs.Scan.Passing

namespace UnitCalc

open Text

variable (resolution : Value) (canonical : String) {s : Scan}

/-- Signs and ones in turn. -/
def onesAdded : Nat → List Char
  | 0 => []
  | n + 1 => '+' :: '1' :: onesAdded n

/-- A one with so many ones added to it. -/
def sumOfOnes (n : Nat) : String :=
  String.ofList ('1' :: onesAdded n)

theorem length_sumOfOnes (n : Nat) : (sumOfOnes n).length = 2 * n + 1 := by
  have hadded : (onesAdded n).length = 2 * n := by
    induction n with
    | zero => rfl
    | succ n ih =>
        rw [onesAdded, List.length_cons, List.length_cons, ih]
        omega
  rw [sumOfOnes, String.length_ofList, List.length_cons, hadded]

-- ============================================================ the scan

/-- A scan behind a summand, with what it has been cut into by then. -/
structure Scan.Summed (s : Scan) (n : Nat) : Prop where
  buffer : s.buffer = ['1']
  frames : s.frames = []
  sum : ∃ e top, Reads .standard s.flush.segments e top ∧ e.depth = n + 1
    ∧ (∀ limit, e.CallsWithin limit)
    ∧ ∀ o ∈ top, SymbolTable.standard.operators.get? "+" = some o

/-- A one is collected where an operand may begin. -/
theorem Scan.Awaits.one (hs : s.Awaits) {k : List Char} (hrest : s.rest = '1' :: k) :
    ∃ s' start, Scan.run (.standard resolution canonical) s
        = Scan.run (.standard resolution canonical) s'
      ∧ s'.rest = k ∧ s'.buffer = ['1'] ∧ s'.frames = s.frames
      ∧ s'.flush.segments = s.segments ++ [⟨.literal, "1", start⟩] := by
  have hdigits : IsDigits ['1'] := ⟨by simp, List.forall_mem_singleton.2 rfl⟩
  have hnumber : IsNumber ['1'] := .intro .none (.whole hdigits) .none
  obtain ⟨s', hkept, hbehind, -⟩ := keeps_number (.standard resolution canonical) hs hnumber hrest
  have hbuffer : s'.buffer = ['1'] := by rw [hkept.buffer, hs.buffer, List.nil_append]
  have htrim : trim s'.buffer = ['1'] := by
    rw [hbuffer]
    rfl
  obtain ⟨start, hsegments⟩ := Scan.flush_segments_of_trim htrim (by simp)
  rw [hkept.segments] at hsegments
  exact ⟨s', start, hkept.run, hbehind, hbuffer, hkept.frames, hsegments⟩

/-- Behind a one that is collected a sign is emitted. -/
theorem Scan.Summed.sign {n : Nat} (h : s.Summed n) {k : List Char} (hrest : s.rest = '+' :: k) :
    ∃ s', Scan.Emits (.standard resolution canonical) s .operator "+" s' ∧ s'.rest = k := by
  obtain ⟨plus, hplus⟩ : ∃ plus, SymbolTable.standard.operatorOf? '+' = some plus := ⟨_, rfl⟩
  have hsettled : ∀ frame ∈ s.frames, frame.Settled := by simp [h.frames]
  have hsign : s.isSign plus k = false := by
    refine Scan.Complete.isSign (Or.inl ?_) plus k
    rw [h.buffer]
    rfl
  have hexponent : s.isExponentSign '+' k = false := by
    unfold Scan.isExponentSign
    rw [h.buffer]
    rfl
  have hunit : s.isUnitSuffix (.standard resolution canonical) '+' k = false := by
    unfold Scan.isUnitSuffix
    rw [show (UnitRegistry.standard resolution canonical).isUnit (String.singleton '+') = false
      from rfl]
    simp only [Bool.false_and]
  exact Scan.Emits.of_move (.standard resolution canonical) rfl hrest rfl
    (move_operator hsettled (by decide) hplus hsign hexponent hunit)

/-- A sign and a one make the sum longer by one and its tree deeper by one. -/
theorem Scan.Summed.add {n : Nat} (h : s.Summed n) {k : List Char}
    (hrest : s.rest = '+' :: '1' :: k) :
    ∃ s', Scan.run (.standard resolution canonical) s
        = Scan.run (.standard resolution canonical) s'
      ∧ s'.rest = k ∧ s'.Summed (n + 1) := by
  obtain ⟨e, top, hreads, hdepth, hcalls, htop⟩ := h.sum
  obtain ⟨s1, hemits, hrest1⟩ := h.sign resolution canonical hrest
  have hframes1 : s1.frames = [] := by
    rw [hemits.frames, h.frames]
    rfl
  have hawaits : s1.Awaits :=
    hemits.awaits (Or.inr (Or.inl rfl)) (by simp [hframes1]) rfl
  obtain ⟨position, hsegments1⟩ := hemits.segments
  obtain ⟨s2, start, hrun2, hrest2, hbuffer2, hframes2, hsegments2⟩ :=
    hawaits.one resolution canonical hrest1
  obtain ⟨plus, hplus⟩ : ∃ plus, SymbolTable.standard.operators.get? "+" = some plus := ⟨_, rfl⟩
  have hleft : plus.associativity = .left := by
    cases hplus
    rfl
  -- The root of the sum so far is the same operator, which associates to the left.
  have hadmits : ∀ o ∈ top, plus.AdmitsLeft o := by
    intro o ho
    obtain rfl : o = plus := Option.some.inj ((htop o ho).symm.trans hplus)
    exact Or.inr ⟨rfl, hleft⟩
  have hgrown : Reads .standard s2.flush.segments
      (.binary plus e (.literal "1" start) position) (some plus) := by
    rw [hsegments2, hsegments1, List.append_assoc]
    exact .binary hreads rfl hplus (.literal rfl) hadmits (by simp)
  refine ⟨s2, hemits.run.trans hrun2, hrest2, hbuffer2, hframes2.trans hframes1, _, _, hgrown,
    ?_, ?_, ?_⟩
  · rw [Expr.depth, Expr.depth, hdepth]
    omega
  · exact fun limit => Expr.callsWithin_binary.2 ⟨hcalls limit, Expr.callsWithin_literal⟩
  · intro o ho
    obtain rfl := Option.some.inj ho
    exact hplus

/-- A sum is scanned to its end. -/
theorem Scan.Summed.run {n : Nat} (h : s.Summed n) {more : Nat} (hrest : s.rest = onesAdded more) :
    ∃ scanned, Scan.run (.standard resolution canonical) s = .ok scanned
      ∧ scanned.Summed (n + more) := by
  induction more generalizing s n with
  | zero => exact ⟨s, Scan.run_nil hrest, h⟩
  | succ more ih =>
      obtain ⟨s', hrun, hrest', hs'⟩ := h.add resolution canonical hrest
      obtain ⟨scanned, hscanned, hsummed⟩ := ih hs' hrest'
      refine ⟨scanned, hrun.trans hscanned, ?_⟩
      rwa [Nat.add_right_comm] at hsummed

/-- The whole source is a sum. -/
theorem Scan.run_sumOfOnes (n : Nat) :
    ∃ scanned, Scan.run (.standard resolution canonical) { rest := (sumOfOnes n).toList }
      = .ok scanned ∧ scanned.Summed n := by
  have hawaits : Scan.Awaits { rest := '1' :: onesAdded n } := ⟨rfl, rfl, by simp, rfl⟩
  obtain ⟨s', start, hrun, hrest, hbuffer, hframes, hsegments⟩ :=
    hawaits.one resolution canonical rfl
  have hfirst : s'.Summed 0 := by
    refine ⟨hbuffer, hframes, .literal "1" start, none, ?_, rfl, fun _ => ?_, by simp⟩
    · rw [hsegments]
      exact .literal rfl
    · exact Expr.callsWithin_literal
  have hscanned := hfirst.run resolution canonical hrest
  rw [Nat.zero_add] at hscanned
  rwa [sumOfOnes, String.toList_ofList, hrun]

-- ============================================================ the tree

/-- A sum that is not too long is built, whatever its depth. -/
theorem Tree.built_sum {limits : Limits} {n : Nat}
    (hlength : (2 * n + 1 : Nat) ≤ limits.expressionLength) :
    ∃ tree, Tree.built? .standard (.standard resolution canonical) limits (sumOfOnes n) = .ok tree
      ∧ tree.depth = n + 2 := by
  obtain ⟨scanned, hscanned, -, -, e, top, hreads, hdepth, hcalls, -⟩ :=
    Scan.run_sumOfOnes resolution canonical n
  have hlengthOk : limits.checkLength (sumOfOnes n).length = .ok () := by
    rw [length_sumOfOnes]
    exact Limits.check_ok hlength
  have hsegments : Segment.ofSource? (.standard resolution canonical) limits (sumOfOnes n)
      = .ok scanned.flush.segments := by
    unfold Segment.ofSource?
    simp only [hlengthOk, hscanned, bind, Except.bind, pure, Except.pure]
  have hinstructions : Instruction.ofSegments? (SymbolTable.standard.grammar limits (sumOfOnes n))
      scanned.flush.segments = .ok e.postorder := hreads.ofSegments (hcalls _)
  have hbuilt : Expr.build .standard (sumOfOnes n) [] e.postorder = .ok [e] :=
    Expr.build_postorder_eq hreads.over
  refine ⟨⟨sumOfOnes n, e⟩, ?_, ?_⟩
  · unfold Tree.built?
    simp only [hsegments, hinstructions, hbuilt, bind, Except.bind]
    rfl
  · rw [Tree.depth, hdepth]
    omega

end UnitCalc
