/-
Histories of sessions.

Requests for values and for normalized values of any nodes alternate with
changes of the symbols and the units, in any order and with any number of
failures. Whatever the history, the memo of the tree is only ever added to and
fits the tree, a failure leaves unset what was being computed when it came, and
no call comes to its end twice (`Session.keeps_performAll`).

# The invariant

It is that the memo fits the tree. A new session has noted nothing; an action
keeps it (`perform_passes`), and so does a history, by induction on its actions
(`performAll_passes`). Everything in `Session.Keeps` follows from it at once,
and so holds between any two actions. The calls that come to their end in a
request are others than those before, since their values were not noted then
(`Observed.Passes.trans`).

Each request is watched by an observer that changes nothing
(`Session.observe_course`); it tells what was running when a request failed,
and which calls came to their end. The changes of symbols and units touch
neither the tree nor the memo.
-/
import UnitCalc.Session
import UnitCalc.Proofs.Evaluation.Course

namespace UnitCalc

-- =================================================================== requests

namespace Session

/-- A session with nothing computed. -/
def new (tree : Tree) (calculator : Calculator) (journal : Journal) : Session :=
  ⟨tree, calculator, { journal }⟩

/-- Asks for a result of the node that a path leads to. -/
def ask (s : Session) (r : Request) : Except Fault (Option Result) × Session :=
  match r.entry with
  | .value =>
    let (answer, s') := s.evaluate r.path
    (answer.map (Option.map .value), s')
  | .normalized =>
    let (answer, s') := s.normalize r.path
    (answer.map (Option.map .normalized), s')

/-- The same, observed. -/
def observe (s : Session) (r : Request) : Except Fault (Option Result) × Observation :=
  (Observed.visit (.root s.tree) (fun n => Observed.result s.environment n r.entry) r.path).run
    { progress := s.progress }

/-- What can happen in a session. -/
inductive Action where
  | ask (r : Request)
  | changeSymbols (f : SymbolTable → SymbolTable)
  | changeUnits (f : UnitRegistry → UnitRegistry)

/-- The session after an action; a request that fails leaves one, too. -/
def perform (s : Session) : Action → Session
  | .ask r => (s.ask r).2
  | .changeSymbols f => s.changeSymbols f
  | .changeUnits f => s.changeUnits f

/-- The session after a history. -/
def performAll (s : Session) (history : List Action) : Session :=
  history.foldl perform s

/-- The calls that come to their end in an action, each as the path to its
node. -/
def completionsOf (s : Session) : Action → List (List Nat)
  | .ask r => (s.observe r).2.completed
  | _ => []

/-- The calls that come to their end in a history, in order. -/
def completions : Session → List Action → List (List Nat)
  | _, [] => []
  | s, a :: history => s.completionsOf a ++ (s.perform a).completions history

end Session

/-- What is made of the answers of nodes can be made of that of a visit. -/
theorem Node.visit_map {α β : Type} (f : α → β) (act : Node → Evaluation α) (path : List Nat) :
    ∀ (n : Node) (p : Progress), (n.visit (fun n => f <$> act n) path).run p
      = (((n.visit act path).run p).1.map (Option.map f), ((n.visit act path).run p).2) := by
  induction path with
  | nil =>
      intro n p
      rw [visit, visit, run_map, run_map, run_map]
      cases ((act n).run p).1 <;> rfl
  | cons i path ih =>
      intro n p
      rw [visit, visit]
      cases n.children[i]? with
      | none => rfl
      | some e =>
          have hchild := ih (.inner e) { p with memo := p.memo.child i }
          show Evaluation.below i _ p = _
          simp only [Evaluation.below, hchild]
          rfl

namespace Session

variable {s : Session} {r : Request}

theorem ask_eq (s : Session) (r : Request) :
    s.ask r = s.request r.path fun env n => n.result env r.entry := by
  obtain ⟨path, entry⟩ := r
  cases entry with
  | value =>
      have hvisit := Node.visit_map Result.value (Node.evaluate s.environment) path
        (.root s.tree) s.progress
      unfold ask evaluate request
      simp only [Node.result, hvisit]
      rfl
  | normalized =>
      have hvisit := Node.visit_map Result.normalized (Node.normalize s.environment) path
        (.root s.tree) s.progress
      unfold ask normalize request
      simp only [Node.result, hvisit]
      rfl

/-- A request that is observed has the same answer and leaves the same
session, and takes its course. -/
theorem observe_course (hfits : (Node.root s.tree).Fits s.progress.memo) (r : Request) :
    s.ask r = ((s.observe r).1, { s with progress := (s.observe r).2.progress })
      ∧ Observed.Course [r] [] (Node.root s.tree).Fits (fun _ _ => True)
        { progress := s.progress } (s.observe r).1 (s.observe r).2 := by
  obtain ⟨answer, after, hobserved, hplain, hcourse⟩ := Observed.watches_visit s.environment
    r.entry r.path (.root s.tree) { progress := s.progress } hfits
  have hobserve : s.observe r = (answer, after) := hobserved
  rw [hobserve]
  refine ⟨?_, hcourse⟩
  rw [ask_eq, request]
  have hrun : ((Node.root s.tree).visit (fun n => n.result s.environment r.entry) r.path).run
      s.progress = (answer, after.progress) := hplain
  rw [hrun]

-- =================================================================== histories

/-- What an action leaves fits the tree, and is passed to. -/
theorem perform_passes (hfits : (Node.root s.tree).Fits s.progress.memo) (a : Action) :
    (s.perform a).tree = s.tree ∧ (Node.root s.tree).Fits (s.perform a).progress.memo
      ∧ Observed.Passes [] { progress := s.progress }
        { progress := (s.perform a).progress, completed := s.completionsOf a } := by
  cases a with
  | ask r =>
      obtain ⟨hask, hcourse⟩ := observe_course hfits r
      have hperform : s.perform (.ask r) = { s with progress := (s.observe r).2.progress } := by
        rw [perform, hask]
      obtain ⟨hkept, hpasses⟩ := hcourse.passed
      rw [hperform]
      exact ⟨rfl, hkept, hpasses.adds, hpasses.completed⟩
  | changeSymbols f => exact ⟨rfl, hfits, .of_extends (.refl _) rfl⟩
  | changeUnits f => exact ⟨rfl, hfits, .of_extends (.refl _) rfl⟩

/-- What a history leaves fits the tree, and is passed to. -/
theorem performAll_passes : ∀ (history : List Action) {s : Session},
    (Node.root s.tree).Fits s.progress.memo →
    (s.performAll history).tree = s.tree
      ∧ (Node.root s.tree).Fits (s.performAll history).progress.memo
      ∧ Observed.Passes [] { progress := s.progress }
        { progress := (s.performAll history).progress, completed := s.completions history } := by
  intro history
  -- On the actions, from whatever session the first one starts.
  induction history with
  | nil => exact fun hfits => ⟨rfl, hfits, .of_extends (.refl _) rfl⟩
  | cons a history ih =>
      intro s hfits
      obtain ⟨htree, hfits', hpasses⟩ := perform_passes hfits a
      obtain ⟨htree', hfits'', hpasses'⟩ := ih (htree ▸ hfits')
      exact ⟨htree'.trans htree, htree ▸ hfits'', hpasses.trans (hpasses'.behind rfl)⟩

/-- What a session keeps to, whatever is asked of it: what is noted stays as it
is; watching a request changes nothing; when a request fails, nothing is noted
of the results that were being computed, from the one that failed up to the one
that was asked for; and each node has the results below it that its own were
computed from. -/
structure Keeps (s : Session) : Prop where
  noted : ∀ r result, s.progress.memo.find? r = some result →
    ∀ more, (s.performAll more).progress.memo.find? r = some result
  watched : ∀ r, s.ask r = ((s.observe r).1, { s with progress := (s.observe r).2.progress })
  failing : ∀ r fault, (s.ask r).1 = .error fault →
    ∃ inner, (s.observe r).2.running = inner ++ [r]
      ∧ (inner ++ [r]).Pairwise (fun r r' => r'.path <+: r.path)
      ∧ ∀ r' ∈ inner ++ [r], (s.ask r).2.progress.memo.find? r' = none
  fits : (Node.root s.tree).Fits s.progress.memo

theorem keeps_of_fits (hfits : (Node.root s.tree).Fits s.progress.memo) : s.Keeps where
  noted r result hfound more := by
    obtain ⟨-, -, hpasses⟩ := performAll_passes more hfits
    exact hpasses.adds r result hfound
  watched r := (observe_course hfits r).1
  failing r fault hfault := by
    obtain ⟨hask, hcourse⟩ := observe_course hfits r
    rw [hask] at hfault ⊢
    generalize s.observe r = observed at hfault hcourse ⊢
    obtain ⟨answer, after⟩ := observed
    obtain rfl : answer = .error fault := hfault
    cases hcourse with
    | breaks inner _ _ running nested unset =>
        exact ⟨inner, running.trans (List.append_nil _), nested, unset⟩
  fits := hfits

/-- Every session keeps to this after every history, and no call has come to
its end twice. -/
theorem keeps_performAll (tree : Tree) (calculator : Calculator) (journal : Journal)
    (history : List Action) :
    ((new tree calculator journal).performAll history).Keeps
      ∧ ((new tree calculator journal).completions history).Nodup := by
  obtain ⟨htree, hfits, -, calls, hcompleted, hnodup, -⟩ :=
    performAll_passes history (Node.fits_fresh (.root (new tree calculator journal).tree))
  refine ⟨keeps_of_fits (htree.symm ▸ hfits), ?_⟩
  have hcalls : (new tree calculator journal).completions history = calls := by
    simpa using hcompleted
  rwa [hcalls]

/-- The sum of a call and a length, which cannot be added. -/
def mixedTree : Tree where
  source := "abs(2) + 3cm"
  child := .binary
    { symbol := "+", precedence := 1, formula := fun x y => .ok (x + y), unary := true,
      retainsUnit := fun _ _ => true }
    (.call { name := "abs", implementation := Numeric.deterministic Numeric.abs,
             parameters := [{}] } [.literal "2" 4] 0)
    (.literal "3cm" 9) 7

/-- The values of the call and the length are known when the sum breaks off, and
the sum and the root above it were being computed. -/
example : ((new mixedTree (.of .standard none {}) { draws := { dice := .lowest } }).observe
      ⟨[], .value⟩).2.running = [⟨[0], .value⟩, ⟨[], .value⟩]
    ∧ ((new mixedTree (.of .standard none {}) { draws := { dice := .lowest } }).observe
      ⟨[], .value⟩).2.completed = [[0, 0]] := by
  decide +kernel

end Session

end UnitCalc
