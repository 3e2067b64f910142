/-
The argument of a built-in call is cut into the segments it has on its own,
with one exception.

A number takes the blanks behind it only inside of the call: there they may
belong to the argument, while outside a gap ends the literal. It does not show
if an operator or a function comes next, since either ends the literal and
trims it. It shows if something else comes next, which outside begins a
literal of its own and inside goes on with the number. So the segments are the
same exactly if no number is juxtaposed (`Segment.ofSource_inCall`).

# Whole runs

The two scans make one move each at every character (`Scan.Follows.advances`),
so both are followed in one induction on what is left of the text
(`Scan.Follows.run`). At its end the scan inside has only the parenthesis
before it. If they part, it needs no more steps to know that their segments
differ: one literal is longer than the other, and literals never get shorter
(`Scan.Parted.verdict`).

The scan behind the opening of a call (`Scan.opened`) is also where the
arguments of `Proofs/Scan/Payload` begin.
-/
import UnitCalc.Config.Basic
import UnitCalc.Proofs.Scan.Advancing

namespace UnitCalc

open Text

namespace Scan

variable {units : UnitRegistry} {function : FunctionSymbol} {source : List Char} {a b : Scan}
  {c : Char} {tail : List Char}

-- ====================================================================== runs

theorem mem_rest_apply {symbols : SymbolTable} {m : Move} {d : Char}
    (h : d ∈ (a.apply symbols c tail m).rest) : d ∈ tail := by
  cases m with
  | keep => exact h
  | skip => exact h
  | emit kind text => exact List.mem_of_mem_drop h

/-- The parenthesis at the end is the last segment. -/
theorem run_close (lexicon : Lexicon) (hrest : b.rest = [')']) :
    ∃ scanned, run lexicon b = .ok scanned
      ∧ scanned.flush.segments = b.flush.segments ++ [⟨.rightParen, ")", b.position⟩] := by
  refine ⟨b.apply lexicon.symbols ')' [] (.emit .rightParen ")"), ?_, flush_segments_of_nil rfl⟩
  rw [run_move hrest (move_structural rfl)]
  exact run_nil rfl

/-- What two scans have found at their ends, as the segments of the text and
the segments of the call. -/
def Verdict (units : UnitRegistry) (source : List Char) (name : String)
    (segments inside : List Segment) : Prop :=
  ¬ Detached units source segments →
    (inside = inCall name segments ++ [⟨.rightParen, ")", name.length + 1 + source.length⟩]
      ↔ ¬ Juxtaposed segments)

/-- Scans that have parted find different segments: the literal inside of the
call is longer than the number outside. -/
theorem Parted.verdict {name : String} {outer inner : Scan} (h : Parted name a b)
    (houter : run (.of .standard units) a = .ok outer)
    (hinner : run (.of .standard units) b = .ok inner) :
    Verdict units source name outer.flush.segments inner.flush.segments := by
  obtain ⟨before, x, hbefore, hexposed, hcollects, hinside, hcollects', hlonger⟩ := h
  obtain ⟨y, more, hsegments, hliteral, -⟩ := literal_of_run hcollects houter
  obtain ⟨z, more', hsegments', -, hlong⟩ := literal_of_run hcollects' hinner
  have hjuxtaposed : Juxtaposed outer.flush.segments :=
    ⟨before, x, y, more, by rw [hsegments, hbefore]; simp, hexposed, hliteral⟩
  -- Outside the number is a segment; inside the segment at its place is longer.
  intro _
  refine iff_of_false (fun heq => ?_) fun hnot => hnot hjuxtaposed
  rw [hsegments', hinside, hsegments, hbefore, List.append_assoc, inCall_append,
    List.append_assoc] at heq
  have hz := (List.cons.inj (List.append_cancel_left heq)).1
  rw [hz, Segment.moved_text] at hlong
  omega

/-- Scans that run abreast find the same segments unless a number is
juxtaposed. -/
theorem Follows.run (hf : function ∈ Numeric.functions) {outer inner : Scan} :
    ∀ {rest : List Char} {a b : Scan}, a.rest = rest → Abreast function.name source a b →
      Follows function a b → (∀ d ∈ a.rest, structural? d = none) →
      Scan.run (.of .standard units) a = .ok outer → Scan.run (.of .standard units) b = .ok inner →
      Verdict units source function.name outer.flush.segments inner.flush.segments := by
  intro rest
  induction hlength : rest.length using Nat.strongRecOn generalizing rest with
  | ind length ih =>
      intro a b hrest habreast hfollows hplain houter hinner
      cases rest with
      | nil =>
          obtain ⟨passed, hsource, hposition, -⟩ := habreast.parts
          have hend : b.position = function.name.length + 1 + source.length := by
            rw [habreast.position, hposition, hsource, hrest, List.append_nil, Nat.add_comm]
          have hclose : b.rest = [')'] := by rw [habreast.rest, hrest, List.nil_append]
          obtain ⟨hsame, happart⟩ := hfollows.flush
          rw [run_nil hrest] at houter
          obtain rfl := Except.ok.inj houter
          obtain ⟨scanned, hscanned, hsegments⟩ := run_close (.of .standard units) hclose
          obtain rfl := Except.ok.inj (hscanned.symm.trans hinner)
          intro _
          refine iff_of_true ?_ happart
          rw [hsegments, hsame, hend]
      | cons c tail =>
          obtain ⟨m, m', hmove, hmove', hleads⟩ :=
            hfollows.advances units hf habreast hrest hplain
          have hrest' : b.rest = c :: (tail ++ [')']) := by
            rw [habreast.rest, hrest, List.cons_append]
          rw [run_move hrest hmove] at houter
          rw [run_move hrest' hmove'] at hinner
          -- Either they stay abreast and the induction goes on, or the difference is already
          -- made.
          rcases hleads with ⟨habreast', hfollows'⟩ | hparted | hdetached
          · have hshorter := a.rest_apply_lt .standard c tail m
            rw [hlength] at hshorter
            refine ih _ hshorter rfl rfl habreast' hfollows' (fun d hd => hplain d ?_) houter hinner
            rw [hrest]
            exact List.mem_cons_of_mem c (mem_rest_apply hd)
          · exact hparted.verdict houter hinner
          · exact fun hnot => absurd (hdetached.extended (segments_prefix_of_run houter)) hnot

end Scan

-- ===================================================================== calls

/-- A scan behind the parenthesis of a call at the start of a source. -/
def Scan.opened (function : FunctionSymbol) (rest : List Char) : Scan where
  position := function.name.length + 1
  preceding := some '('
  rest := rest
  segments := inCall function.name []
  frames := [{ function, depth := 1 }]

/-- There it runs abreast with a scan that has just begun. -/
theorem Scan.abreast_opened (function : FunctionSymbol) (text : List Char) :
    Abreast function.name text { rest := text } (opened function (text ++ [')']))
      ∧ Follows function { rest := text } (opened function (text ++ [')'])) := by
  refine ⟨⟨⟨[], rfl, rfl, rfl⟩, rfl, (Nat.zero_add _).symm, rfl⟩, ?_⟩
  refine .reads ⟨⟨rfl, fun hne => absurd rfl hne, rfl⟩, rfl, rfl, by simp, ?_, ?_⟩
  · rintro ⟨before, x, y, after, heq, -⟩
    simp at heq
  · rintro ⟨before, x, heq, -⟩
    simp at heq

/-- A call begins with its name, where that is found, and its parenthesis. -/
theorem Scan.run_opening {lexicon : Lexicon} {function : FunctionSymbol}
    (hget : lexicon.symbols.functions.get? function.name = some function)
    (hname : function.name ≠ "") {rest : List Char}
    (hmove : ∀ first letters, function.name.toList = first :: letters →
      lexicon.move { rest := function.name.toList ++ '(' :: rest } first (letters ++ '(' :: rest)
        = .ok (.emit .function function.name)) :
    run lexicon { rest := function.name.toList ++ '(' :: rest }
      = run lexicon (opened function rest) := by
  obtain ⟨first, letters, hletters⟩ :=
    List.exists_cons_of_ne_nil (mt String.toList_eq_nil_iff.1 hname)
  have hdrop : (letters ++ '(' :: rest).drop (function.name.length - 1) = '(' :: rest := by
    rw [← String.length_toList, hletters, List.length_cons, Nat.add_sub_cancel, List.drop_left]
  rw [run_move (by rw [hletters, List.cons_append]) (hmove first letters hletters),
    run_move hdrop (move_structural rfl)]
  congr 1
  simp only [apply, framesAfter, hget, Nat.zero_add, String.length_singleton,
    String.toList_singleton]
  rfl

namespace Segment

/-- A source that is not too long is cut into what a scan finds. -/
theorem ofSource_of_run {lexicon : Lexicon} {limits : Limits} {source : String} {scanned : Scan}
    (hlength : (source.length : Int) ≤ limits.expressionLength)
    (hrun : Scan.run lexicon { rest := source.toList } = .ok scanned) :
    Segment.ofSource? lexicon limits source = .ok scanned.flush.segments := by
  unfold ofSource? Limits.checkLength Limits.check
  rw [if_neg (by omega), hrun]
  rfl

/-- A text with neither parentheses nor commas has the same segments on its own
and as the argument of a built-in call, there moved by the length of what is
before it, exactly if no number with no function before it is followed by
another literal. Texts with a number that has come apart from its unit are left
aside: a unit belongs right behind its number, and inside of the call it is
taken for one behind blanks as well. -/
theorem ofSource_inCall (units : UnitRegistry) (limits : Limits) {function : FunctionSymbol}
    (hf : function ∈ Numeric.functions) {text : String}
    (hplain : ∀ c ∈ text.toList, structural? c = none)
    (hlength : ((function.name ++ "(" ++ text ++ ")").length : Int) ≤ limits.expressionLength) :
    ∃ segments inside, Segment.ofSource? (.of .standard units) limits text = .ok segments
      ∧ Segment.ofSource? (.of .standard units) limits (function.name ++ "(" ++ text ++ ")")
        = .ok inside
      ∧ (¬ Detached units text.toList segments →
        (inside = inCall function.name segments
            ++ [⟨.rightParen, ")", function.name.length + 1 + text.length⟩]
          ↔ ¬ Juxtaposed segments)) := by
  have hcall : (function.name ++ "(" ++ text ++ ")").toList
      = function.name.toList ++ '(' :: (text.toList ++ [')']) := by simp
  have hshort : (text.length : Int) ≤ limits.expressionLength := by
    simp only [String.length_append] at hlength
    omega
  obtain ⟨outer, houter, -⟩ := Scan.run_total standard_readable units text.toList
    { rest := text.toList } rfl (by simp)
  obtain ⟨inner, hinner, -⟩ := Scan.run_total standard_readable units
    (function.name.toList ++ '(' :: (text.toList ++ [')']))
    { rest := function.name.toList ++ '(' :: (text.toList ++ [')']) } rfl (by simp)
  refine ⟨_, _, ofSource_of_run hshort houter, ofSource_of_run hlength (hcall ▸ hinner), ?_⟩
  obtain ⟨⟨first, letters, hname, -⟩, hget, -⟩ := standard_function hf
  have hnamed : function.name ≠ "" := by
    rw [ne_eq, ← String.toList_eq_nil_iff, hname]
    exact List.cons_ne_nil first letters
  rw [Scan.run_opening hget hnamed fun first letters hname =>
    move_function hf (by simp) rfl (by rw [hname, List.cons_append])] at hinner
  obtain ⟨habreast, hfollows⟩ := Scan.abreast_opened function text.toList
  have hverdict := Scan.Follows.run hf rfl habreast hfollows hplain houter hinner
  rwa [Scan.Verdict, String.length_toList] at hverdict

/-- The segments of `3 - -2e-3 *x`. -/
def spacedSegments : List Segment :=
  [⟨.literal, "3", 0⟩, ⟨.operator, "-", 2⟩, ⟨.literal, "-2e-3", 4⟩, ⟨.operator, "*", 10⟩,
   ⟨.literal, "x", 11⟩]

/-- A difference of a number and a product, on its own and rounded. -/
theorem ofSource_inCall_rounded :
    Segment.ofSource? (.of .standard ({} : Config).units) .standard "3 - -2e-3 *x"
        = .ok spacedSegments
      ∧ Segment.ofSource? (.of .standard ({} : Config).units) .standard "round(3 - -2e-3 *x)"
        = .ok (inCall "round" spacedSegments ++ [⟨.rightParen, ")", 18⟩]) := by
  have hf : Numeric.functions[4] ∈ Numeric.functions := List.getElem_mem _
  have hplain : ∀ c ∈ "3 - -2e-3 *x".toList, structural? c = none :=
    forall_mem_of_all (by decide)
  obtain ⟨segments, inside, hsegments, hinside, hsame⟩ :=
    ofSource_inCall ({} : Config).units .standard hf hplain (by decide)
  have halone : Segment.ofSource? (.of .standard ({} : Config).units) .standard "3 - -2e-3 *x"
      = .ok spacedSegments := by
    decide +kernel
  obtain rfl := Except.ok.inj (hsegments.symm.trans halone)
  refine ⟨halone, hinside.trans (congrArg Except.ok ((hsame ?_).2 ?_))⟩
  · decide +kernel
  · decide +kernel

/-- Two numbers with a gap between them are two literals on their own and one
as the argument of a call. -/
theorem ofSource_inCall_juxtaposed :
    ∃ segments inside,
      Segment.ofSource? (.of .standard ({} : Config).units) .standard "1 2" = .ok segments
        ∧ Segment.ofSource? (.of .standard ({} : Config).units) .standard "abs(1 2)" = .ok inside
        ∧ inside ≠ inCall "abs" segments ++ [⟨.rightParen, ")", 7⟩] := by
  refine ⟨[⟨.literal, "1", 0⟩, ⟨.literal, "2", 2⟩],
    [⟨.function, "abs", 0⟩, ⟨.leftParen, "(", 3⟩, ⟨.literal, "1 2", 4⟩, ⟨.rightParen, ")", 7⟩],
    ?_, ?_, ?_⟩ <;> decide +kernel

end Segment

end UnitCalc
