/-
The course of a computation.

An observed computation has the same answer and the same progress as the one
that it observes (`Observed.Watches`), and what it leaves behind is told by
`Observed.Course`: results are only added to the memo; none is noted that was
being computed when a failure came; and a call that came to an end has its
value noted, which it had not before. So no call comes to an end twice.

# What a step keeps

Each line of a `do` block keeps these facts, and `Watches.bind` puts them in
sequence: results that were noted before a step are still there behind it, so
the calls that end in the later part are others than those of the earlier one
(`Passes.trans`). A computation at a child is one at the node with longer paths
(`Watches.below`). A computation whose result is remembered either finds it, or
notes it at its end, or breaks off and leaves it unset
(`Watches.remember`).

Only the memo of a node is in question while the node is computed, and each
step of the computation leaves it open (`Node.Open`) until the result is noted.
The one moment at which the two accounts are apart is the end of a call, whose
value is due until the node has noted it.

# The induction

`watchesValue` goes by the constructors of the tree, with the arguments of a
call as an inner induction on their list. A request is the evaluation of the
node that its path leads to (`watches_visit`), by induction on the path.
`Proofs/Session/History` adds up requests and changes of the tables.
-/
import UnitCalc.Proofs.Evaluation.Observed

namespace UnitCalc

open Evaluation (Tracks)

-- ==================================================================== courses

namespace Observed

/-- From one observation to another, results are only added, and the calls that
came to an end, but for those whose values are due, are those whose values were
noted for the first time. -/
structure Passes (due : List (List Nat)) (o after : Observation) : Prop where
  adds : o.progress.memo.Extends after.progress.memo
  completed : ∃ calls : List (List Nat), after.completed = o.completed ++ calls ++ due
    ∧ calls.Nodup ∧ ∀ path ∈ calls, o.progress.memo.find? ⟨path, .value⟩ = none
      ∧ (after.progress.memo.find? ⟨path, .value⟩).isSome

/-- How a computation that is asked for some results goes: it ends with all of
them, or it breaks off with none of those that were being computed. -/
inductive Course {α : Type} (asked : List Request) (due : List (List Nat)) (kept : Memo → Prop)
    (noted : α → Memo → Prop) (o : Observation) : Except Fault α → Observation → Prop
  | ends {a : α} {after : Observation} (passes : Passes due o after)
      (keeps : kept after.progress.memo) (notes : noted a after.progress.memo)
      (running : after.running = o.running) : Course asked due kept noted o (.ok a) after
  | breaks {fault : Fault} {after : Observation} (inner : List Request) (passes : Passes [] o after)
      (keeps : kept after.progress.memo)
      (running : after.running = inner ++ asked ++ o.running)
      (nested : (inner ++ asked).Pairwise fun r r' => r'.path <+: r.path)
      (unset : ∀ r ∈ inner ++ asked, after.progress.memo.find? r = none) :
      Course asked due kept noted o (.error fault) after

/-- An observed computation does what another does that nobody observes, and
takes its course. -/
def Watches {α : Type} (act : Observed α) (plain : Evaluation α) (o : Observation)
    (asked : List Request) (due : List (List Nat)) (kept : Memo → Prop)
    (noted : α → Memo → Prop) : Prop :=
  ∃ answer after, act.run o = (answer, after)
    ∧ plain.run o.progress = (answer, after.progress)
    ∧ Course asked due kept noted o answer after

variable {α β : Type} {act : Observed α} {plain : Evaluation α} {o middle after : Observation}
  {asked : List Request} {due : List (List Nat)} {kept : Memo → Prop} {noted : α → Memo → Prop}

theorem Passes.of_extends (h : o.progress.memo.Extends after.progress.memo)
    (hsame : after.completed = o.completed) : Passes [] o after :=
  ⟨h, [], by rw [hsame, List.append_nil, List.append_nil], List.nodup_nil, by simp⟩

/-- Calls that come to an end later are others. -/
theorem Passes.trans (h : Passes [] o middle) (h' : Passes due middle after) :
    Passes due o after := by
  obtain ⟨hadds, calls, hcompleted, hnodup, hcalls⟩ := h
  obtain ⟨hadds', later, hcompleted', hnodup', hlater⟩ := h'
  refine ⟨hadds.trans hadds', calls ++ later, ?_, ?_, ?_⟩
  · rw [hcompleted', hcompleted, List.append_nil, List.append_assoc o.completed]
  · refine List.nodup_append.2 ⟨hnodup, hnodup', ?_⟩
    rintro path hpath path' hpath' rfl
    -- A call of both parts would be noted between them and unset there as well.
    have hset := (hcalls path hpath).2
    rw [(hlater path hpath').1] at hset
    cases hset
  · intro path hpath
    rcases List.mem_append.1 hpath with hpath | hpath
    · exact ⟨(hcalls path hpath).1, hadds'.find?_isSome (hcalls path hpath).2⟩
    · exact ⟨hadds.find?_eq_none (hlater path hpath).1, (hlater path hpath).2⟩

theorem Course.passed {answer : Except Fault α} (h : Course asked [] kept noted o answer after) :
    kept after.progress.memo ∧ Passes [] o after := by
  cases h with
  | ends passes keeps => exact ⟨keeps, passes⟩
  | breaks _ passes keeps => exact ⟨keeps, passes⟩

/-- It does not matter which calls had come to an end before. -/
theorem Passes.behind {p q : Progress} {calls : List (List Nat)}
    (h : Passes [] { progress := p } { progress := q, completed := calls })
    (hp : middle.progress = p) :
    Passes [] middle { progress := q, completed := middle.completed ++ calls } := by
  obtain ⟨hadds, calls', hcompleted, hnodup, hcalls⟩ := h
  subst hp
  refine ⟨hadds, calls', ?_, hnodup, hcalls⟩
  have hcalls' : calls = calls' := by simpa using hcompleted
  rw [hcalls', List.append_nil]

namespace Watches

theorem pure {a : α} (hkept : kept o.progress.memo) (hnoted : noted a o.progress.memo) :
    Watches (Pure.pure a) (Pure.pure a) o asked [] kept noted :=
  ⟨.ok a, o, rfl, rfl, .ends (.of_extends (.refl _) rfl) hkept hnoted rfl⟩

/-- Of what is done in turn, the later part goes by what the earlier one has
noted. -/
theorem bind {f : α → Observed β} {g : α → Evaluation β} {done : β → Memo → Prop}
    (h : Watches act plain o [] [] kept noted)
    (hf : ∀ a middle, kept middle.progress.memo → noted a middle.progress.memo →
      Watches (f a) (g a) middle [] due kept fun b memo =>
        middle.progress.memo.Extends memo → done b memo) :
    Watches (act >>= f) (plain >>= g) o [] due kept done := by
  obtain ⟨answer, middle, hact, hplain, hcourse⟩ := h
  cases hcourse with
  | breaks inner passes keeps running nested unset =>
      exact ⟨_, middle, run_bind_error hact, run_bind_error hplain,
        .breaks inner passes keeps running nested unset⟩
  | @ends a _ passes keeps notes running =>
      obtain ⟨answer, last, hrun, hrun', hcourse'⟩ := hf a middle keeps notes
      refine ⟨answer, last, (run_bind_ok hact).trans hrun, (run_bind_ok hplain).trans hrun', ?_⟩
      cases hcourse' with
      | ends passes' keeps' notes' running' =>
          exact .ends (passes.trans passes') keeps' (notes' passes'.adds) (running'.trans running)
      | breaks inner passes' keeps' running' nested unset =>
          exact .breaks inner (passes.trans passes') keeps' (running ▸ running') nested unset

/-- What a computation was asked for is among what was running when it broke
off. -/
theorem weaken {weaker : α → Memo → Prop} (h : Watches act plain o asked due kept noted)
    (himp : ∀ a memo, noted a memo → weaker a memo) :
    Watches act plain o [] due kept weaker := by
  obtain ⟨answer, after, hact, hplain, hcourse⟩ := h
  refine ⟨answer, after, hact, hplain, ?_⟩
  cases hcourse with
  | ends passes keeps notes running => exact .ends passes keeps (himp _ _ notes) running
  | breaks inner passes keeps running nested unset =>
      rw [← List.append_nil (inner ++ asked)] at running nested unset
      exact .breaks (inner ++ asked) passes keeps running nested unset

/-- What has nothing to do with the memo is not observed. -/
theorem lift {plain : Evaluation α} {any : α → Memo → Prop}
    (h : Tracks plain plain o.progress any) (hkept : kept o.progress.memo) :
    Watches (Observed.lift plain) plain o [] [] kept
      fun a memo => memo = o.progress.memo ∧ (plain.run o.progress).1 = .ok a := by
  obtain ⟨answer, last, -, hplain, -⟩ := h
  have hrun : plain.run o.progress = (answer, { last with memo := o.progress.memo }) :=
    hplain o.progress.memo
  have hlift : (Observed.lift plain).run o
      = (answer, { o with progress := { last with memo := o.progress.memo } }) := by
    show Observed.lift plain o = _
    unfold Observed.lift
    rw [hrun]
  refine ⟨answer, _, hlift, hrun, ?_⟩
  cases answer with
  | ok a => exact .ends (.of_extends (.refl _) rfl) hkept ⟨rfl, congrArg Prod.fst hrun⟩ rfl
  | error fault =>
      exact .breaks [] (.of_extends (.refl _) rfl) hkept rfl List.Pairwise.nil (by simp)

theorem ofExcept (answer : Except Fault α) (hkept : kept o.progress.memo) :
    Watches (Observed.lift (Evaluation.ofExcept answer)) (Evaluation.ofExcept answer) o [] [] kept
      fun a memo => memo = o.progress.memo ∧ answer = .ok a := by
  refine (lift (Tracks.ofExcept answer _) hkept).weaken fun a memo hnoted => ?_
  rwa [Evaluation.run_ofExcept] at hnoted

/-- An implementation that came to an end leaves a value due. -/
theorem completing (h : Watches act plain o [] [] kept noted) :
    Watches (Observed.completing act) plain o [] [[]] kept noted := by
  obtain ⟨answer, after, hact, hplain, hcourse⟩ := h
  cases hcourse with
  | @ends a _ passes keeps notes running =>
      obtain ⟨hadds, calls, hcompleted, hnodup, hcalls⟩ := passes
      rw [List.append_nil] at hcompleted
      exact ⟨.ok a, _, run_completing_ok hact, hplain,
        .ends ⟨hadds, calls, congrArg (· ++ [[]]) hcompleted, hnodup, hcalls⟩ keeps notes running⟩
  | @breaks fault _ inner passes keeps running nested unset =>
      exact ⟨.error fault, after, run_completing_error hact, hplain,
        .breaks inner passes keeps running nested unset⟩

end Watches

-- ================================================================== at a child

/-- What passes at a child passes at the node. -/
theorem Passes.withChild {i : Nat} {c : Observation} (h : Passes [] (o.child i) c) :
    Passes [] o (o.withChild i c) := by
  obtain ⟨hadds, calls, hcompleted, hnodup, hcalls⟩ := h
  refine ⟨Memo.extends_withChild hadds, calls.map (List.cons i), ?_, ?_, ?_⟩
  · have hnone : (o.child i).completed = [] := rfl
    rw [Observation.withChild, hcompleted, hnone, List.append_nil, List.append_nil,
      List.nil_append]
  · exact List.Pairwise.map (List.cons i) (fun _ _ hne heq => hne (List.cons.inj heq).2) hnodup
  · intro path hpath
    obtain ⟨path, hcall, rfl⟩ := List.mem_map.1 hpath
    obtain ⟨hnone, hsome⟩ := hcalls path hcall
    refine ⟨hnone, ?_⟩
    show ((o.progress.memo.withChild i c.progress.memo).find?
      (Request.below i ⟨path, .value⟩)).isSome
    rwa [Memo.find?_below, Memo.child_withChild, if_pos rfl]

theorem Watches.below {i : Nat} {childKept : Memo → Prop}
    (h : Watches act plain (o.child i) asked [] childKept noted)
    (hkept : ∀ c, childKept c → (o.progress.memo.child i).Extends c →
      kept (o.progress.memo.withChild i c)) :
    Watches (Observed.below i act) (Evaluation.below i plain) o (asked.map (Request.below i)) []
      kept fun a memo => noted a (memo.child i) := by
  obtain ⟨answer, c, hact, hplain, hcourse⟩ := h
  have hbelow : (Evaluation.below i plain).run o.progress
      = (answer, (o.withChild i c).progress) := by
    have hrun : plain.run { o.progress with memo := o.progress.memo.child i }
        = (answer, c.progress) := hplain
    show Evaluation.below i plain o.progress = _
    unfold Evaluation.below
    rw [hrun]
    rfl
  refine ⟨answer, o.withChild i c, run_below hact, hbelow, ?_⟩
  cases hcourse with
  | ends passes keeps notes running =>
      refine .ends passes.withChild (hkept _ keeps passes.adds) ?_ ?_
      · show noted _ ((o.progress.memo.withChild i c.progress.memo).child i)
        rwa [Memo.child_withChild, if_pos rfl]
      · rw [Observation.withChild, running]
        rfl
  | breaks inner passes keeps running nested unset =>
      have hall : inner.map (Request.below i) ++ asked.map (Request.below i)
          = (inner ++ asked).map (Request.below i) := List.map_append.symm
      refine .breaks (inner.map (Request.below i)) passes.withChild
        (hkept _ keeps passes.adds) ?_ ?_ ?_
      · have hnone : (o.child i).running = [] := rfl
        rw [Observation.withChild, running, hall, hnone, List.append_nil]
      · rw [hall]
        exact List.pairwise_map.2 (nested.imp fun h => (List.prefix_cons_inj _).2 h)
      · rw [hall]
        intro r hr
        obtain ⟨r', hr', rfl⟩ := List.mem_map.1 hr
        show (o.progress.memo.withChild i c.progress.memo).find? (r'.below i) = none
        rw [Memo.find?_below, Memo.child_withChild, if_pos rfl]
        exact unset r' hr'

-- ========================================================= results of a node

/-- What an entry of the memo is read and written with. -/
structure Slot (entry : Entry) (known : Memo → Option α) (note : Memo → α → Memo) : Prop where
  unset : ∀ m, known m = none → m.find? ⟨[], entry⟩ = none
  set : ∀ m a, ((note m a).find? ⟨[], entry⟩).isSome
  adds : ∀ m a, known m = none → m.Extends (note m a)

theorem slot_value : Slot .value Memo.value? Memo.withValue where
  unset m h := by
    rw [Memo.find?_nil, Memo.result?, h]
    rfl
  set _ _ := rfl
  adds _ _ h := Memo.extends_withValue h

theorem slot_normalized : Slot .normalized Memo.normalized? Memo.withNormalized where
  unset m h := by
    rw [Memo.find?_nil, Memo.result?, h]
    rfl
  set _ _ := rfl
  adds _ _ h := Memo.extends_withNormalized h

variable {entry : Entry} {known : Memo → Option α} {note : Memo → α → Memo}

/-- When a result is noted, no value of a call is due any more. -/
theorem Passes.noting (hslot : Slot entry known note) {running : List Request} {a : α}
    (hdue : due = [] ∨ due = [[]] ∧ entry = .value) (hbefore : known o.progress.memo = none)
    (hafter : known after.progress.memo = none) (h : Passes due o after) :
    Passes [] o { after with
      progress := { after.progress with memo := note after.progress.memo a }, running } := by
  obtain ⟨hadds, calls, hcompleted, hnodup, hcalls⟩ := h
  have hnoted := hslot.adds after.progress.memo a hafter
  refine ⟨hadds.trans hnoted, calls ++ due, ?_, ?_, ?_⟩
  · rw [hcompleted, List.append_nil, List.append_assoc]
  · rcases hdue with rfl | ⟨rfl, rfl⟩
    · rwa [List.append_nil]
    · refine List.nodup_append.2 ⟨hnodup, List.pairwise_singleton _ _, ?_⟩
      rintro path hpath path' hpath' rfl
      rw [List.mem_singleton] at hpath'
      have hset := (hcalls path hpath).2
      rw [hpath', hslot.unset _ hafter] at hset
      cases hset
  · intro path hpath
    rcases List.mem_append.1 hpath with hpath | hpath
    · exact ⟨(hcalls path hpath).1, hnoted.find?_isSome (hcalls path hpath).2⟩
    · rcases hdue with rfl | ⟨rfl, rfl⟩
      · cases hpath
      · rw [List.mem_singleton.1 hpath]
        exact ⟨hslot.unset _ hbefore, hslot.set _ a⟩

/-- A result that is remembered is noted where its computation ends, and unset
where it breaks off. -/
theorem Watches.remember (hslot : Slot entry known note) {before : Memo → Prop}
    {ready : α → Memo → Prop} (hdue : due = [] ∨ due = [[]] ∧ entry = .value)
    (hknown : ∀ a, known o.progress.memo = some a →
      kept o.progress.memo ∧ noted a o.progress.memo)
    (hbody : known o.progress.memo = none →
      Watches act plain { o with running := ⟨[], entry⟩ :: o.running } [] due before ready)
    (hbefore : known o.progress.memo = none → ∀ m, before m → known m = none ∧ kept m)
    (hnote : known o.progress.memo = none →
      ∀ a m, before m → ready a m → kept (note m a) ∧ noted a (note m a)) :
    Watches (Observed.remember entry known note act) (Evaluation.remember known note plain) o
      [⟨[], entry⟩] [] kept noted := by
  cases hcase : known o.progress.memo with
  | some a =>
      obtain ⟨hkept, hnoted⟩ := hknown a hcase
      exact ⟨.ok a, o, remember_known hcase, remember_known hcase,
        .ends (.of_extends (.refl _) rfl) hkept hnoted rfl⟩
  -- The result was not known, and its computation took its own course.
  | none =>
      obtain ⟨answer, after, hact, hplain, hcourse⟩ := hbody hcase
      cases hcourse with
      | @ends a _ passes keeps notes running =>
          have hbegun : Passes due o { after with running := o.running } :=
            ⟨passes.adds, passes.completed⟩
          obtain ⟨hkept, hnoted⟩ := hnote hcase a _ keeps notes
          exact ⟨.ok a, _, remember_ok hcase (run_computing_ok hact), remember_ok hcase hplain,
            .ends (hbegun.noting hslot hdue hcase (hbefore hcase _ keeps).1) hkept hnoted rfl⟩
      | @breaks fault _ inner passes keeps running nested unset =>
          rw [List.append_nil] at running nested unset
          obtain ⟨hnone, hkept⟩ := hbefore hcase _ keeps
          refine ⟨.error fault, after, remember_error hcase (run_computing_error hact),
            remember_error hcase hplain,
            .breaks inner ⟨passes.adds, passes.completed⟩ hkept ?_ ?_ ?_⟩
          · rw [running, List.append_assoc, List.singleton_append]
          · exact List.pairwise_append.2 ⟨nested, List.pairwise_singleton _ _,
              fun r _ r' hr' => by
                rw [List.mem_singleton.1 hr']
                exact List.nil_prefix⟩
          · intro r hr
            rcases List.mem_append.1 hr with hr | hr
            · exact unset r hr
            · rw [List.mem_singleton.1 hr]
              exact hslot.unset _ hnone

-- ==================================================================== the tree

variable {env : Environment} {n : Node}

/-- Whether the evaluation of a node takes its course: its value is noted when
it has one, and its normalized value is let alone. -/
def WatchesValue (env : Environment) (n : Node) : Prop :=
  ∀ o : Observation, n.Fits o.progress.memo →
    Watches (evaluateNode env n) (n.evaluate env) o [⟨[], .value⟩] []
      (fun memo => n.Fits memo ∧ memo.normalized? = o.progress.memo.normalized?)
      fun _ memo => memo.value?.isSome

/-- The value of a node is noted when those below are. -/
theorem watches_value {act : Observed Value} {plain : Evaluation Value}
    (hdue : due = [] ∨ due = [[]]) (hfits : n.Fits o.progress.memo)
    (hbody : n.Open o.progress.memo →
      Watches act plain { o with running := ⟨[], .value⟩ :: o.running } [] due n.Open
        fun _ memo => n.Ready memo) :
    Watches (rememberValue act) (Evaluation.rememberValue plain) o [⟨[], .value⟩] []
      (fun memo => n.Fits memo ∧ memo.normalized? = o.progress.memo.normalized?)
      fun _ memo => memo.value?.isSome := by
  rw [Evaluation.rememberValue_eq]
  have hsame : ∀ {m}, o.progress.memo.value? = none → n.Open m →
      m.normalized? = o.progress.memo.normalized? := fun hnone hm =>
    hm.normalized.trans (hfits.isOpen hnone).normalized.symm
  refine Watches.remember slot_value (hdue.imp_right fun h => ⟨h, rfl⟩) (fun v hv => ?_)
    (fun hnone => hbody (hfits.isOpen hnone)) (fun hnone m hm => ?_) fun hnone v m hm hready => ?_
  · rw [hv]
    exact ⟨⟨hfits, rfl⟩, rfl⟩
  · exact ⟨hm.value, hm.fits, hsame hnone hm⟩
  · exact ⟨⟨hm.withValue hready, @hsame m hnone hm⟩, rfl⟩

/-- The normalized value of a node is noted when its value is. -/
theorem watches_normalized (h : WatchesValue env n) (hfits : n.Fits o.progress.memo) :
    Watches (normalized env n.position (evaluateNode env n)) (n.normalize env) o
      [⟨[], .normalized⟩] [] n.Fits fun _ memo => memo.normalized?.isSome := by
  have hvalue := h { o with running := ⟨[], .normalized⟩ :: o.running } hfits
  have hbody := (hvalue.weaken fun _ _ hset => hset).bind fun v _ hkept hset =>
    (Watches.ofExcept (env.numberOf n.position v) hkept).weaken fun _ _ hnoted _ => hnoted.1 ▸ hset
  unfold normalized Node.normalize Environment.normalized
  rw [Evaluation.rememberNormalized_eq]
  refine Watches.remember slot_normalized (Or.inl rfl) (fun x hx => ?_) (fun _ => hbody)
    (fun hnone m hm => ?_) fun _ x m hm hset => ?_
  · rw [hx]
    exact ⟨hfits, rfl⟩
  · exact ⟨hm.2.trans hnone, hm.1⟩
  · exact ⟨hm.1.withNormalized hset, rfl⟩

/-- The value of a child is noted while nothing is noted of the node itself. -/
theorem watches_child {e : Expr} {i : Nat} (h : WatchesValue env (.inner e))
    (he : n.children[i]? = some e) (hopen : n.Open o.progress.memo) :
    Watches (Observed.below i (evaluate env e)) (Evaluation.below i (e.evaluate env)) o [] []
      n.Open fun _ memo => (memo.child i).value?.isSome :=
  ((h (o.child i) (hopen.below i e he)).below fun _ hc _ => hopen.withChild he hc.1).weaken
    fun _ _ hnoted => hnoted

/-- So is its normalized value. -/
theorem watches_childNumber {e : Expr} {i : Nat} (h : WatchesValue env (.inner e))
    (he : n.children[i]? = some e) (hopen : n.Open o.progress.memo) :
    Watches (Observed.below i (normalized env e.position (evaluate env e)))
      (Evaluation.below i (env.normalized e.position (e.evaluate env))) o [] [] n.Open
      fun _ memo => (memo.child i).normalized?.isSome :=
  ((watches_normalized h (hopen.below i e he)).below fun _ hc _ => hopen.withChild he hc).weaken
    fun _ _ hnoted => hnoted

/-- The arguments of a call are noted one after the other. -/
theorem watches_arguments {function : FunctionSymbol} {es : List Expr}
    (h : ∀ e ∈ es, WatchesValue env (.inner e)) :
    ∀ {parameters : List Parameter} {index : Nat} {o : Observation},
      es.length ≤ parameters.length → n.HasFrom index es → n.Open o.progress.memo →
      Watches (evaluateArguments env function index es parameters)
        (Expr.evaluateArguments env function index es parameters) o [] [] n.Open
        fun _ memo => ∀ i, i < es.length → (memo.child (index + i)).value?.isSome := by
  induction es with
  | nil =>
      intro parameters index o _ _ hopen
      rw [evaluateArguments, Expr.evaluateArguments]
      · exact Watches.pure hopen (by simp)
      all_goals simp
  | cons e es ih =>
      intro parameters index o hlength hplace hopen
      cases parameters with
      | nil => simp at hlength
      | cons parameter parameters =>
          rw [evaluateArguments, Expr.evaluateArguments]
          refine Watches.bind (watches_child (h e List.mem_cons_self) hplace.head hopen) ?_
          intro v o₁ hopen₁ hvalue
          refine Watches.bind (Watches.lift
            (Environment.checkArgument_tracks function index parameter v e.position o₁.progress)
            hopen₁) ?_
          intro _ o₂ hopen₂ _
          refine Watches.bind (ih (fun e' he' => h e' (List.mem_cons_of_mem e he'))
            (Nat.le_of_succ_le_succ hlength) hplace.tail hopen₂) ?_
          intro values o₃ hopen₃ hvalues
          refine Watches.pure hopen₃ fun _ _ hadds₁ i hi => ?_
          cases i with
          | zero => exact (hadds₁.child index).value? hvalue
          | succ i =>
              have hlater := hvalues i (Nat.lt_of_succ_lt_succ hi)
              rwa [Nat.add_assoc, Nat.add_comm 1] at hlater

theorem watches_literal (env : Environment) (text : String) (position : Nat) :
    WatchesValue env (.inner (.literal text position)) := by
  intro o hfits
  rw [evaluateNode, evaluate, Node.evaluate, Expr.evaluate]
  refine watches_value (Or.inl rfl) hfits fun hopen => Watches.pure hopen ⟨?_, ?_⟩
  · exact fun i hi => absurd hi (Nat.not_lt_zero i)
  · exact fun _ _ _ _ h => by cases h

/-- An operator notes the values of its operands, and then those in the
canonical unit. -/
theorem watches_binary {operator : OperatorSymbol} {left right : Expr} {position : Nat}
    (hleft : WatchesValue env (.inner left)) (hright : WatchesValue env (.inner right)) :
    WatchesValue env (.inner (.binary operator left right position)) := by
  intro o hfits
  have h₀ : (Node.inner (.binary operator left right position)).children[0]? = some left := rfl
  have h₁ : (Node.inner (.binary operator left right position)).children[1]? = some right := rfl
  rw [evaluateNode, evaluate, Node.evaluate, Expr.evaluate]
  refine watches_value (Or.inl rfl) hfits fun hopen => ?_
  refine Watches.bind (watches_child hleft h₀ hopen) ?_
  intro leftValue o₁ hopen₁ hleftValue
  refine Watches.bind (watches_child hright h₁ hopen₁) ?_
  intro rightValue o₂ hopen₂ hrightValue
  refine Watches.bind (Watches.ofExcept _ hopen₂) ?_
  intro power o₃ hopen₃ _
  refine Watches.bind (watches_childNumber hleft h₀ hopen₃) ?_
  intro x o₄ hopen₄ hx
  refine Watches.bind (watches_childNumber hright h₁ hopen₄) ?_
  intro y o₅ hopen₅ hy
  -- What was noted on the way is still there at the end, whatever was added.
  have hready : ∀ memo, o₅.progress.memo.Extends memo → o₄.progress.memo.Extends memo →
      o₂.progress.memo.Extends memo → o₁.progress.memo.Extends memo →
      (Node.inner (.binary operator left right position)).Ready memo := by
    intro memo hadds₅ hadds₄ hadds₂ hadds₁
    exact Node.ready_binary ((hadds₁.child 0).value? hleftValue)
      ((hadds₂.child 1).value? hrightValue) ((hadds₄.child 0).normalized? hx)
      ((hadds₅.child 1).normalized? hy)
  refine Watches.bind (Watches.ofExcept _ hopen₅) ?_
  intro result o₆ hopen₆ _
  by_cases hpower : power = 0
  · simp only [hpower, ↓reduceIte]
    exact Watches.pure hopen₆ fun _ h₅ h₄ _ h₂ h₁ => hready _ h₅ h₄ h₂ h₁
  · simp only [hpower, ↓reduceIte]
    exact (Watches.ofExcept _ hopen₆).weaken
      fun _ _ _ _ h₅ h₄ _ h₂ h₁ => hready _ h₅ h₄ h₂ h₁

/-- A call notes the values of its arguments, which are as many as its function
has parameters for. -/
theorem watches_call {function : FunctionSymbol} {arguments : List Expr} {position : Nat}
    (harguments : ∀ e ∈ arguments, WatchesValue env (.inner e)) :
    WatchesValue env (.inner (.call function arguments position)) := by
  intro o hfits
  rw [evaluateNode, evaluate, Node.evaluate, Expr.evaluate]
  refine watches_value (Or.inr rfl) hfits fun hopen => ?_
  refine Watches.bind (Watches.ofExcept _ hopen) ?_
  rintro _ o₁ hopen₁ ⟨-, harity⟩
  refine Watches.bind (watches_arguments harguments (Environment.le_of_checkArity harity)
    (Node.hasFrom_call function arguments position) hopen₁) ?_
  intro values o₂ hopen₂ hvalues
  refine Watches.bind (Watches.lift (Evaluation.note_tracks _ _) hopen₂) ?_
  intro _ o₃ hopen₃ _
  refine ((Watches.lift (Evaluation.drawing_tracks _ _) hopen₃).weaken
    fun v memo _ _ hadds₂ _ => ⟨fun i hi => ?_, fun _ _ _ _ h => ?_⟩).completing
  · have hvalue := hvalues i hi
    rw [Nat.zero_add] at hvalue
    exact (hadds₂.child i).value? hvalue
  · cases h

mutual

theorem watchesValue (env : Environment) : ∀ e : Expr, WatchesValue env (.inner e)
  | .literal text position => watches_literal env text position
  | .binary _ left right _ => watches_binary (watchesValue env left) (watchesValue env right)
  | .call _ arguments _ => watches_call (watchesValues env arguments)

theorem watchesValues (env : Environment) : ∀ es : List Expr, ∀ e ∈ es, WatchesValue env (.inner e)
  | [], _, he => absurd he List.not_mem_nil
  | e :: es, e', he =>
      (List.mem_cons.1 he).elim (fun heq => heq ▸ watchesValue env e) (watchesValues env es e')

end

-- ==================================================================== requests

/-- The evaluation of any node takes its course, the root's included. -/
theorem watches_node (env : Environment) : ∀ n : Node, WatchesValue env n
  | .inner e => watchesValue env e
  | .root tree => by
      intro o hfits
      -- The root has one child, and is ready when that has its value.
      have hready : ∀ memo : Memo, (memo.child 0).value?.isSome → (Node.root tree).Ready memo := by
        refine fun memo hvalue => ⟨fun i hi => ?_, fun _ _ _ _ h => by cases h⟩
        obtain rfl : i = 0 := Nat.lt_one_iff.1 hi
        exact hvalue
      refine watches_value (Or.inl rfl) hfits fun hopen => ?_
      exact Watches.weaken (watches_child (watchesValue env tree.child) rfl hopen)
        fun _ memo => hready memo

/-- What is made of an answer is no matter of the memo. -/
theorem Watches.map (f : α → β) {weaker : Memo → Prop}
    (h : Watches act plain o asked due kept noted) (himp : ∀ memo, kept memo → weaker memo) :
    Watches (f <$> act) (f <$> plain) o asked due weaker fun _ _ => True := by
  obtain ⟨answer, after, hact, hplain, hcourse⟩ := h
  cases hcourse with
  | ends passes keeps _ running =>
      exact ⟨_, after, run_bind_ok hact, run_bind_ok hplain,
        .ends passes (himp _ keeps) trivial running⟩
  | breaks inner passes keeps running nested unset =>
      exact ⟨_, after, run_bind_error hact, run_bind_error hplain,
        .breaks inner passes (himp _ keeps) running nested unset⟩

theorem watches_result (env : Environment) (n : Node) (entry : Entry) (o : Observation)
    (hfits : n.Fits o.progress.memo) :
    Watches (result env n entry) (n.result env entry) o [⟨[], entry⟩] [] n.Fits
      fun _ _ => True := by
  cases entry with
  | value => exact (watches_node env n o hfits).map Result.value fun _ h => h.1
  | normalized =>
      exact (watches_normalized (watches_node env n) hfits).map Result.normalized fun _ h => h

/-- A request at any node takes its course there. -/
theorem watches_visit (env : Environment) (entry : Entry) (path : List Nat) :
    ∀ (n : Node) (o : Observation), n.Fits o.progress.memo →
      Watches (visit n (fun n => result env n entry) path)
        (n.visit (fun n => n.result env entry) path) o [⟨path, entry⟩] [] n.Fits
        fun _ _ => True := by
  induction path with
  | nil => exact fun n o hfits => (watches_result env n entry o hfits).map some fun _ h => h
  | cons i path ih =>
      intro n o hfits
      rw [visit, Node.visit]
      cases he : n.children[i]? with
      | none => exact Watches.pure hfits trivial
      | some e =>
          exact (ih (.inner e) (o.child i) (hfits.child he)).below
            fun c hc hadds => hfits.withChild he hc hadds

end Observed

end UnitCalc
