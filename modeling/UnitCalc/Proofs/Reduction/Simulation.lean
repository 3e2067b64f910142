/-
The reduction along a derivation.

Taking in a sentence that reads as a tree puts a part of the tree's postorder
listing on the output and leaves the rest waiting: the operators along the
right edge of the tree, in front of what was on the stack before (`Leaves`).
What waits is released by anything that releases the root, because every
operator on the right edge is admitted wherever the root is.

# Where a tree may begin

A tree may not begin anywhere. An operator that waits on top of the stack must
not be released by the operators of the tree, which is to say that it admits
the root as its right operand (`Ready`). This goes on to the left operand,
whose root the tree's root admits, since admission is transitive there
(`AdmitsRight.trans_left`), and it starts anew behind the operator and behind
an open parenthesis.

# The induction

It is on the derivation (`Reads.takesIn`), with one lemma for each of its
rules. The equations hold for any reduction where the tree may begin and for
any segments behind the sentence, so they compose without looking back. At the
end of the list everything is released, and the output is the postorder
listing (`Reads.ofSegments`).

`Proofs/Parsing/Complete` gets from it the existence of a parse and the
uniqueness of the tree.
-/
import UnitCalc.Proofs.Grammar.Reading
import UnitCalc.Proofs.Reduction.Steps

namespace UnitCalc

open Reduction

variable {t : SymbolTable} {limits : Limits} {source : String}

/-- The grammar of a table for a source. -/
abbrev SymbolTable.grammar (t : SymbolTable) (limits : Limits) (source : String) : Grammar :=
  ⟨t.operators, limits, source⟩

-- =========================================================== many arguments

namespace Expr

/-- Whether no call among an expression and what is below it has more
arguments than a limit admits. -/
def CallsWithin (limit : Int) (e : Expr) : Prop :=
  ∀ function arguments position,
    call function arguments position ∈ e.preorder → (arguments.length : Int) ≤ limit

/-- The same of several expressions. -/
def AllCallsWithin (limit : Int) (es : List Expr) : Prop :=
  ∀ e ∈ es, e.CallsWithin limit

theorem callsWithin_literal {limit : Int} {text : String} {position : Nat} :
    (literal text position).CallsWithin limit := by
  simp [CallsWithin, preorder]

theorem callsWithin_binary {limit : Int} {operator : OperatorSymbol} {left right : Expr}
    {position : Nat} :
    (binary operator left right position).CallsWithin limit
      ↔ left.CallsWithin limit ∧ right.CallsWithin limit := by
  unfold CallsWithin
  simp only [preorder, List.mem_cons, List.mem_append, reduceCtorEq, false_or]
  constructor
  · intro h
    exact ⟨fun f a p hmem => h f a p (Or.inl hmem), fun f a p hmem => h f a p (Or.inr hmem)⟩
  · rintro ⟨hleft, hright⟩ f a p (hmem | hmem)
    · exact hleft f a p hmem
    · exact hright f a p hmem

theorem callsWithin_call {limit : Int} {function : FunctionSymbol} {arguments : List Expr}
    {position : Nat} :
    (call function arguments position).CallsWithin limit
      ↔ (arguments.length : Int) ≤ limit ∧ AllCallsWithin limit arguments := by
  unfold AllCallsWithin CallsWithin
  simp only [preorder, List.mem_cons, mem_preorderAll]
  constructor
  · intro h
    refine ⟨h function arguments position (Or.inl rfl), ?_⟩
    intro e he f a p hmem
    exact h f a p (Or.inr ⟨e, he, hmem⟩)
  · rintro ⟨hlength, harguments⟩ f a p (heq | ⟨e, he, hmem⟩)
    · injection heq with _ ha _
      rw [ha]
      exact hlength
    · exact harguments e he f a p hmem

end Expr

-- ================================================================ one step

namespace Reduction

/-- A step that goes well is the beginning of the run. -/
theorem run_cons {grammar : Grammar} {r r' : Reduction} {x : Segment} {more : List Segment}
    (h : step grammar r x (more.head?.map Segment.kind) = .ok r') :
    run grammar r (x :: more) = run grammar r' more := by
  rw [run, h]
  rfl

/-- Only a parenthesis opens a call. -/
theorem callOpen_of_ne_leftParen {x : Segment} {below : List Segment}
    (hx : x.kind ≠ .leftParen) : callOpen (x :: below) = false := by
  cases below <;> simp [callOpen, hx]

/-- The parenthesis of a group opens no call. -/
theorem callOpen_group {x : Segment} {below : List Segment}
    (hbelow : ∀ y ∈ below.head?, y.kind ≠ .function) : callOpen (x :: below) = false := by
  cases below with
  | nil => rfl
  | cons y below => simp [callOpen, hbelow y rfl]

/-- Where no call is open no argument begins. -/
theorem begun_of_not_callOpen {stack : List Segment} {counters : List Nat}
    (h : callOpen stack = false) : begun stack counters = counters := by
  simp [begun, h]

/-- A kind of segment behind which an argument can end. -/
def EndsOperand (kind : SegmentKind) : Prop :=
  kind = .literal ∨ kind = .rightParen

theorem EndsOperand.ne_comma {kind : SegmentKind} (h : EndsOperand kind) :
    some kind ≠ some .comma := by
  rcases h with rfl | rfl <;> simp

theorem EndsOperand.ne_leftParen {kind : SegmentKind} (h : EndsOperand kind) :
    some kind ≠ some .leftParen := by
  rcases h with rfl | rfl <;> simp

/-- A place where a tree with a given root may begin: no function waits for
its parenthesis, there is a counter for the argument that may begin here,
and an operator on top of the stack admits the root as its right operand. -/
structure Ready (t : SymbolTable) (top : Option OperatorSymbol) (r : Reduction) : Prop where
  noFunction : ∀ below ∈ r.stack.head?, below.kind ≠ .function
  counted : callOpen r.stack = true → r.counters ≠ []
  admitted : ∀ below ∈ r.stack.head?, below.kind = .operator →
    ∃ waiting, t.operators.get? below.text = some waiting
      ∧ ∀ o ∈ top, waiting.AdmitsRight o

/-- What taking in a tree leaves: operators that are released with its root,
and the beginning of its postorder listing. -/
structure Leaves (t : SymbolTable) (e : Expr) (top : Option OperatorSymbol)
    (pending : List Segment) (out : List Instruction) : Prop where
  operand : top = none → pending = []
  released : ∀ p ∈ pending, p.kind = .operator
    ∧ ∃ waiting, t.operators.get? p.text = some waiting
      ∧ ∀ o : OperatorSymbol, (∀ root ∈ top, o.AdmitsLeft root) → o.AdmitsLeft waiting
  postorder : out ++ pending.map operatorInstruction = e.postorder

/-- An operand leaves nothing waiting. -/
theorem Leaves.ofOperand {e : Expr} : Leaves t e none [] e.postorder :=
  ⟨fun _ => rfl, by simp, by simp⟩

end Reduction

-- ========================================================== where trees begin

/-- The left operand may begin wherever the whole may. -/
theorem Reduction.Ready.left {r : Reduction} {operator : OperatorSymbol}
    {leftTop : Option OperatorSymbol} (h : Ready t (some operator) r)
    (hadmits : ∀ o ∈ leftTop, operator.AdmitsLeft o) : Ready t leftTop r where
  noFunction := h.noFunction
  counted := h.counted
  admitted := by
    intro below hbelow hkind
    obtain ⟨waiting, hwaiting, hright⟩ := h.admitted below hbelow hkind
    exact ⟨waiting, hwaiting, fun o ho => (hright operator rfl).trans_left (hadmits o ho)⟩

/-- Behind an operator its right operand may begin. -/
theorem Reduction.Ready.right {r : Reduction} {x : Segment} {below : List Segment}
    {operator : OperatorSymbol} {rightTop : Option OperatorSymbol}
    (hstack : r.stack = x :: below) (hx : x.kind = .operator)
    (hknown : t.operators.get? x.text = some operator)
    (hadmits : ∀ o ∈ rightTop, operator.AdmitsRight o) : Ready t rightTop r where
  noFunction := by
    intro top htop
    obtain rfl : x = top := by simpa [hstack] using htop
    simp [hx]
  counted := by
    rw [hstack, callOpen_of_ne_leftParen (by simp [hx])]
    simp
  admitted := by
    intro top htop _
    obtain rfl : x = top := by simpa [hstack] using htop
    exact ⟨operator, hknown, hadmits⟩

/-- Behind the parenthesis of a group any tree may begin. -/
theorem Reduction.Ready.group {r : Reduction} {x : Segment} {below : List Segment}
    {top : Option OperatorSymbol} (hstack : r.stack = x :: below) (hx : x.kind = .leftParen)
    (hbelow : ∀ y ∈ below.head?, y.kind ≠ .function) : Ready t top r where
  noFunction := by
    intro y hy
    obtain rfl : x = y := by simpa [hstack] using hy
    simp [hx]
  counted := by
    rw [hstack, callOpen_group hbelow]
    simp
  admitted := by
    intro y hy hkind
    obtain rfl : x = y := by simpa [hstack] using hy
    rw [hx] at hkind
    cases hkind

/-- Behind the parenthesis of a call, or a comma in it, any tree may begin,
and it is counted. -/
theorem Reduction.Ready.argument {r : Reduction} {o f : Segment} {below : List Segment}
    {top : Option OperatorSymbol} {count : Nat} {outer : List Nat}
    (hstack : r.stack = o :: f :: below) (ho : o.kind = .leftParen) (hf : f.kind = .function)
    (hcounters : r.counters = count :: outer) :
    begun r.stack r.counters = (count + 1) :: outer ∧ Ready t top r := by
  refine ⟨by simp [begun, hstack, hcounters, callOpen, ho, hf], ?_, ?_, ?_⟩
  · intro y hy
    obtain rfl : o = y := by simpa [hstack] using hy
    simp [ho]
  · intro _
    simp [hcounters]
  · intro y hy hkind
    obtain rfl : o = y := by simpa [hstack] using hy
    rw [ho] at hkind
    cases hkind

/-- The name of a call and its parenthesis go on the stack together. -/
theorem Reduction.run_callOpen {r : Reduction} {f o : Segment} {more : List Segment}
    (hf : f.kind = .function) (ho : o.kind = .leftParen)
    (hcounted : callOpen r.stack = true → r.counters ≠ []) :
    run (t.grammar limits source) r (f :: o :: more)
      = run (t.grammar limits source)
          ⟨r.output, o :: f :: r.stack, 0 :: begun r.stack r.counters, some .leftParen⟩ more := by
  have hclosed : callOpen (f :: r.stack) = false := callOpen_of_ne_leftParen (by simp [hf])
  have hname : step (t.grammar limits source) r f ((o :: more).head?.map Segment.kind)
      = .ok ⟨r.output, f :: r.stack, 0 :: begun r.stack r.counters, some .function⟩ := by
    rw [List.head?_cons, Option.map_some, ho]
    exact step_function hf hcounted
  rw [run_cons hname, run_cons (step_leftParen ho (by simp)), begun_of_not_callOpen hclosed]

-- ================================================================ whole trees

namespace Reduction

/-- Segments are taken in as a tree wherever one with its root may begin,
whatever segments follow. -/
def TakesIn (t : SymbolTable) (limits : Limits) (source : String) (s : List Segment) (e : Expr)
    (top : Option OperatorSymbol) : Prop :=
  ∀ r, Ready t top r → ∃ pending out last, Leaves t e top pending out ∧ EndsOperand last
    ∧ ∀ more, run (t.grammar limits source) r (s ++ more)
      = run (t.grammar limits source)
          ⟨r.output ++ out, pending ++ r.stack, begun r.stack r.counters, some last⟩ more

/-- The same of the arguments of a call, behind its parenthesis or a comma
in it. -/
def TakesInAll (t : SymbolTable) (limits : Limits) (source : String) (s : List Segment)
    (es : List Expr) : Prop :=
  ∀ r o f below count outer, r.stack = o :: f :: below → o.kind = .leftParen →
    f.kind = .function → r.counters = count :: outer →
    ∃ pending out last, (∀ p ∈ pending, p.kind = .operator)
      ∧ out ++ pending.map operatorInstruction = Expr.postorderAll es ∧ EndsOperand last
      ∧ ∀ more, run (t.grammar limits source) r (s ++ more)
        = run (t.grammar limits source)
            ⟨r.output ++ out, pending ++ r.stack, (count + es.length) :: outer, some last⟩ more

theorem TakesIn.literal {x : Segment} (hx : x.kind = .literal) :
    TakesIn t limits source [x] (.literal x.text x.position) none := by
  intro r hr
  refine ⟨[], [.value x.text x.position], .literal, .ofOperand, Or.inl rfl, ?_⟩
  intro more
  exact run_cons (step_literal hx hr.counted)

theorem TakesIn.group {s : List Segment} {o c : Segment} {e : Expr}
    {inner : Option OperatorSymbol} (ho : o.kind = .leftParen)
    (hs : TakesIn t limits source s e inner) (hc : c.kind = .rightParen) :
    TakesIn t limits source (o :: s ++ [c]) e none := by
  intro r hr
  have hbegin : Ready t inner
      ⟨r.output, o :: r.stack, begun r.stack r.counters, some .leftParen⟩ :=
    .group rfl ho hr.noFunction
  obtain ⟨pending, out, last, hleaves, hlast, hrun⟩ := hs _ hbegin
  have hkinds : ∀ p ∈ pending, p.kind = .operator := fun p hp => (hleaves.released p hp).1
  refine ⟨[], e.postorder, .rightParen, .ofOperand, Or.inr rfl, ?_⟩
  intro more
  rw [List.append_assoc, List.cons_append, run_cons (step_leftParen ho hr.counted), hrun,
    List.singleton_append,
    run_cons (step_rightParen_group hc rfl ho hkinds hr.noFunction hlast.ne_comma),
    begun_of_not_callOpen (callOpen_group hr.noFunction), List.append_assoc, hleaves.postorder]
  rfl

section

variable {f o c : Segment} {function : FunctionSymbol} (hf : f.kind = .function)
  (hknown : t.functions.get? f.text = some function) (ho : o.kind = .leftParen)
  (hc : c.kind = .rightParen)

include hf hknown ho hc

theorem TakesIn.emptyCall (hlimit : (0 : Int) ≤ limits.arguments) :
    TakesIn t limits source [f, o, c] (.call function [] f.position) none := by
  have hname := Registry.key_of_get? hknown
  intro r hr
  have hstack : o :: f :: r.stack = [] ++ o :: f :: r.stack := rfl
  refine ⟨[], _, .rightParen, .ofOperand, Or.inr rfl, ?_⟩
  intro more
  rw [List.cons_append, List.cons_append, run_callOpen hf ho hr.counted, List.singleton_append,
    run_cons (step_rightParen_call hc hstack ho hf (by simp) (by simp) rfl hlimit)]
  simp [Expr.postorder, Expr.postorderAll, ← hname, Keyed.key]

theorem TakesIn.call {s : List Segment} {arguments : List Expr}
    (hs : TakesInAll t limits source s arguments)
    (hlimit : (arguments.length : Int) ≤ limits.arguments) :
    TakesIn t limits source (f :: o :: s ++ [c]) (.call function arguments f.position) none := by
  have hname := Registry.key_of_get? hknown
  intro r hr
  obtain ⟨pending, out, last, hkinds, hout, hlast, hrun⟩ :=
    hs ⟨r.output, o :: f :: r.stack, 0 :: begun r.stack r.counters, some .leftParen⟩ o f r.stack 0
      (begun r.stack r.counters) rfl ho hf rfl
  refine ⟨[], _, .rightParen, .ofOperand, Or.inr rfl, ?_⟩
  intro more
  rw [List.append_assoc, List.cons_append, List.cons_append, run_callOpen hf ho hr.counted, hrun,
    List.singleton_append,
    run_cons (step_rightParen_call hc rfl ho hf hkinds hlast.ne_comma rfl (by simpa using hlimit))]
  simp only [List.append_assoc, Expr.postorder, ← hout, ← hname, Keyed.key, Nat.zero_add,
    List.nil_append]

end

/-- What an operator leaves waiting is released with it. -/
theorem Leaves.binary {x : Segment} {operator : OperatorSymbol} {left right : Expr}
    {rightTop : Option OperatorSymbol} {pending : List Segment} {out : List Instruction}
    (hx : x.kind = .operator) (hknown : t.operators.get? x.text = some operator)
    (hadmits : ∀ o ∈ rightTop, operator.AdmitsRight o)
    (hright : Leaves t right rightTop pending out) :
    Leaves t (.binary operator left right x.position) (some operator) (pending ++ [x])
      (left.postorder ++ out) where
  operand := by simp
  released := by
    intro p hp
    rcases List.mem_append.1 hp with hp | hp
    · -- Whoever releases this operator releases the right operand's root, and with it what it
      -- left.
      obtain ⟨hkind, waiting, hwaiting, hreleased⟩ := hright.released p hp
      refine ⟨hkind, waiting, hwaiting, fun o ho => hreleased o fun root hroot => ?_⟩
      exact (ho operator rfl).trans_right (hadmits root hroot)
    · obtain rfl : p = x := List.mem_singleton.1 hp
      exact ⟨hx, operator, hknown, fun o ho => ho operator rfl⟩
  postorder := by
    have hname := Registry.key_of_get? hknown
    rw [List.map_append, List.append_assoc, ← List.append_assoc out, hright.postorder]
    simp [operatorInstruction, Expr.postorder, ← hname, Keyed.key]

theorem TakesIn.binary {l s : List Segment} {x : Segment} {operator : OperatorSymbol}
    {left right : Expr} {leftTop rightTop : Option OperatorSymbol}
    (hl : TakesIn t limits source l left leftTop) (hx : x.kind = .operator)
    (hknown : t.operators.get? x.text = some operator)
    (hs : TakesIn t limits source s right rightTop)
    (hadmitsLeft : ∀ o ∈ leftTop, operator.AdmitsLeft o)
    (hadmitsRight : ∀ o ∈ rightTop, operator.AdmitsRight o) :
    TakesIn t limits source (l ++ x :: s) (.binary operator left right x.position)
      (some operator) := by
  intro r hr
  obtain ⟨pendingLeft, outLeft, lastLeft, hleft, -, hrunLeft⟩ := hl r (hr.left hadmitsLeft)
  -- The operator releases all that its left operand left waiting, and
  -- nothing of what was there before.
  have hreleased : ∀ p ∈ pendingLeft, p.kind = .operator
      ∧ ∃ waiting, t.operators.get? p.text = some waiting
        ∧ operator.yieldsTo waiting = true := by
    intro p hp
    obtain ⟨hkind, waiting, hwaiting, hadmits⟩ := hleft.released p hp
    refine ⟨hkind, waiting, hwaiting, ?_⟩
    rw [OperatorSymbol.yieldsTo_iff]
    exact hadmits operator hadmitsLeft
  have hkept : ∀ below ∈ r.stack.head?, below.kind = .operator →
      ∃ waiting, t.operators.get? below.text = some waiting
        ∧ operator.yieldsTo waiting = false := by
    intro below hbelow hkind
    obtain ⟨waiting, hwaiting, hadmits⟩ := hr.admitted below hbelow hkind
    refine ⟨waiting, hwaiting, ?_⟩
    rw [OperatorSymbol.yieldsTo_eq_false_iff]
    exact hadmits operator rfl
  have hready : Ready t rightTop ⟨r.output ++ left.postorder, x :: r.stack,
      begun r.stack r.counters, some .operator⟩ :=
    .right rfl hx hknown hadmitsRight
  obtain ⟨pendingRight, outRight, lastRight, hright, hlast, hrunRight⟩ := hs _ hready
  refine ⟨pendingRight ++ [x], left.postorder ++ outRight, lastRight,
    .binary hx hknown hadmitsRight hright, hlast, ?_⟩
  intro more
  rw [List.append_assoc, List.cons_append, hrunLeft,
    run_cons (step_operator hx hknown rfl hreleased hkept), List.append_assoc, hleft.postorder,
    hrunRight, begun_of_not_callOpen (callOpen_of_ne_leftParen (by simp [hx]))]
  simp only [List.append_assoc, List.singleton_append]

theorem TakesInAll.one {s : List Segment} {e : Expr} {top : Option OperatorSymbol}
    (hs : TakesIn t limits source s e top) : TakesInAll t limits source s [e] := by
  intro r o f below count outer hstack ho hf hcounters
  obtain ⟨hbegun, hready⟩ := Ready.argument hstack ho hf hcounters
  obtain ⟨pending, out, last, hleaves, hlast, hrun⟩ := hs r hready
  refine ⟨pending, out, last, fun p hp => (hleaves.released p hp).1, ?_, hlast, ?_⟩
  · simp [hleaves.postorder, Expr.postorderAll]
  · intro more
    rw [hrun, hbegun]
    rfl

theorem TakesInAll.more {s a : List Segment} {x : Segment} {e : Expr} {es : List Expr}
    {top : Option OperatorSymbol} (hs : TakesIn t limits source s e top) (hx : x.kind = .comma)
    (ha : TakesInAll t limits source a es) :
    TakesInAll t limits source (s ++ x :: a) (e :: es) := by
  intro r o f below count outer hstack ho hf hcounters
  obtain ⟨hbegun, hready⟩ := Ready.argument hstack ho hf hcounters
  obtain ⟨pending, out, last, hleaves, hlast, hrun⟩ := hs r hready
  have hkinds : ∀ p ∈ pending, p.kind = .operator := fun p hp => (hleaves.released p hp).1
  obtain ⟨pendingAll, outAll, lastAll, hkindsAll, houtAll, hlastAll, hrunAll⟩ :=
    ha ⟨r.output ++ e.postorder, o :: f :: below, (count + 1) :: outer, some .comma⟩ o f below
      (count + 1) outer rfl ho hf rfl
  -- The comma has written what the first argument left waiting.
  refine ⟨pendingAll, e.postorder ++ outAll, lastAll, hkindsAll, ?_, hlastAll, ?_⟩
  · rw [List.append_assoc, houtAll, Expr.postorderAll]
  · intro more
    rw [List.append_assoc, List.cons_append, hrun, hbegun, hstack,
      run_cons (step_comma hx rfl ho hf hkinds ⟨hlast.ne_leftParen, hlast.ne_comma⟩),
      List.append_assoc, hleaves.postorder, hrunAll]
    simp only [List.append_assoc, List.length_cons, Nat.add_comm, Nat.add_left_comm]

end Reduction

mutual

/-- A sentence is taken in as the tree it reads as. -/
theorem Reads.takesIn {s : List Segment} {e : Expr} {top : Option OperatorSymbol}
    (h : Reads t s e top) (hcalls : e.CallsWithin limits.arguments) :
    TakesIn t limits source s e top := by
  match h with
  | .literal hx => exact .literal hx
  | .group ho hs hc => exact .group ho (hs.takesIn hcalls) hc
  | .emptyCall hf hknown ho hc =>
      exact .emptyCall hf hknown ho hc (Expr.callsWithin_call.1 hcalls).1
  | .call hf hknown ho ha hc =>
      obtain ⟨hlimit, harguments⟩ := Expr.callsWithin_call.1 hcalls
      exact .call hf hknown ho hc (ha.takesInAll harguments) hlimit
  | .binary hl hx hknown hs hadmitsLeft hadmitsRight =>
      obtain ⟨hcallsLeft, hcallsRight⟩ := Expr.callsWithin_binary.1 hcalls
      exact .binary (hl.takesIn hcallsLeft) hx hknown (hs.takesIn hcallsRight) hadmitsLeft
        hadmitsRight

/-- Arguments are taken in as the trees they read as. -/
theorem ReadsAll.takesInAll {s : List Segment} {es : List Expr} (h : ReadsAll t s es)
    (hcalls : Expr.AllCallsWithin limits.arguments es) : TakesInAll t limits source s es := by
  match h with
  | .one hs => exact .one (hs.takesIn (hcalls _ List.mem_cons_self))
  | .more hs hx ha =>
      exact .more (hs.takesIn (hcalls _ List.mem_cons_self)) hx
        (ha.takesInAll fun e he => hcalls e (List.mem_cons_of_mem _ he))

end

/-- The instructions of a sentence are the postorder listing of its tree. -/
theorem Reads.ofSegments {s : List Segment} {e : Expr} {top : Option OperatorSymbol}
    (h : Reads t s e top) (hcalls : e.CallsWithin limits.arguments) :
    Instruction.ofSegments? (t.grammar limits source) s = .ok e.postorder := by
  have hready : Ready t top {} := ⟨by simp, by simp [callOpen], by simp⟩
  obtain ⟨pending, out, last, hleaves, -, hrun⟩ := h.takesIn hcalls {} hready
  have hwhole := hrun []
  simp only [List.append_nil, List.nil_append, Reduction.run] at hwhole
  have hfinish : finish (t.grammar limits source) ⟨out, pending, begun [] [], some last⟩
      = .ok ⟨out ++ pending.map operatorInstruction, [], begun [] [], some last⟩ :=
    finish_operators fun p hp => (hleaves.released p hp).1
  unfold Instruction.ofSegments?
  rw [hwhole]
  simp only [bind, Except.bind, pure, Except.pure, hfinish, hleaves.postorder]

end UnitCalc
