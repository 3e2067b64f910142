/-
Histories of symbol tables.

Tables are made and copied, and what they know is added, merged and removed, in
any order. What a registry holds is told by the events of its history alone: an
entry is the one last added, if its symbol was not removed since (`LastAdded`),
and symbols come in the order in which they were first added since they were
last removed (`FirstAdded`). Both are said of places in the history, without a
registry.

# One event

An event keeps a registry in step with its history (`Registry.Follows.add`,
`Registry.Follows.remove`), and so does any number of them. Of the order it is
said that there are growing places at which the symbols were first added. An
addition leaves those places alone or puts the end of the history behind them,
and a removal leaves some of them out.

# Tables and workspaces

A table is three registries with a history each, and one change goes to one of
them. A copy has the history of its model up to then and one of its own from
there on (`Workspace.follows_performAll`, by induction on what is done), and
what is not changed stays as it is. Both together are
`Workspace.follows_histories`, over every list of actions from nothing.
-/
import Mathlib.Data.List.Forall2
import Mathlib.Data.List.Induction
import UnitCalc.Symbol.Workspace

namespace UnitCalc

open Keyed

universe u

-- ==================================================================== events

/-- What can happen to a symbol of a registry. -/
inductive Event (α : Type u) where
  | added (a : α)
  | removed (symbol : String)

variable {α : Type u} [Keyed α String] {history : List (Event α)} {k : String} {a : α} {i : Nat}

/-- The symbol that an event is about. -/
def Event.symbol : Event α → String
  | added a => key a
  | removed k => k

/-- Whether something is what was last added under a symbol, and the symbol was
not removed since. -/
def LastAdded (history : List (Event α)) (k : String) (a : α) : Prop :=
  ∃ i : Nat, history[i]? = some (.added a) ∧ key a = k
    ∧ ∀ (j : Nat) e, i < j → history[j]? = some e → e.symbol ≠ k

/-- Whether a symbol was first added, since it was last removed, at a place of a
history. -/
structure FirstAdded (history : List (Event α)) (i : Nat) (k : String) : Prop where
  added : ∃ a, history[i]? = some (.added a) ∧ key a = k
  /-- It was not removed since. -/
  kept : ∀ j : Nat, history[j]? = some (.removed k) → j < i
  /-- Whenever it was added before, it was removed again. -/
  first : ∀ (j : Nat) a, j < i → history[j]? = some (.added a) → key a = k →
    ∃ j' : Nat, j < j' ∧ j' < i ∧ history[j']? = some (.removed k)

theorem getElem?_concat_eq_some {β : Type u} {l : List β} {x y : β} {i : Nat} :
    (l ++ [x])[i]? = some y ↔ l[i]? = some y ∨ i = l.length ∧ x = y := by
  rcases Nat.lt_trichotomy i l.length with hlt | rfl | hgt
  · rw [List.getElem?_append_left hlt]
    exact ⟨Or.inl, fun h => h.resolve_right fun hend => absurd hend.1 (Nat.ne_of_lt hlt)⟩
  · simp
  · have hnone : l[i]? = none := List.getElem?_eq_none (Nat.le_of_lt hgt)
    have hnone' : (l ++ [x])[i]? = none :=
      List.getElem?_eq_none (by rw [List.length_append]; exact hgt)
    simp [hnone, hnone', Nat.ne_of_gt hgt]

/-- What one more event makes the last addition. -/
theorem lastAdded_concat {e : Event α} :
    LastAdded (history ++ [e]) k a
      ↔ e = .added a ∧ key a = k ∨ e.symbol ≠ k ∧ LastAdded history k a := by
  constructor
  · intro ⟨i, hadded, hkey, hlater⟩
    rcases getElem?_concat_eq_some.1 hadded with hearlier | ⟨-, hlast⟩
    · obtain ⟨hlt, -⟩ := List.getElem?_eq_some_iff.1 hearlier
      right
      refine ⟨hlater history.length e hlt (getElem?_concat_eq_some.2 (Or.inr ⟨rfl, rfl⟩)), i,
        hearlier, hkey, fun j e' hj he' => ?_⟩
      exact hlater j e' hj (getElem?_concat_eq_some.2 (Or.inl he'))
    · exact Or.inl ⟨hlast, hkey⟩
  · intro h
    rcases h with ⟨rfl, hkey⟩ | ⟨hother, i, hadded, hkey, hlater⟩
    · refine ⟨history.length, by simp, hkey, fun j e hj he => ?_⟩
      rw [List.getElem?_eq_none (by rw [List.length_append]; exact hj)] at he
      cases he
    · refine ⟨i, getElem?_concat_eq_some.2 (Or.inl hadded), hkey, fun j e' hj he' => ?_⟩
      rcases getElem?_concat_eq_some.1 he' with hearlier | ⟨-, rfl⟩
      · exact hlater j e' hj hearlier
      · exact hother

/-- What was added and whose symbol was not removed since, or something after it
under the same symbol, was added last. -/
theorem exists_lastAdded (hadded : history[i]? = some (.added a)) (hkey : key a = k)
    (hkept : ∀ j : Nat, i < j → history[j]? ≠ some (.removed k)) :
    ∃ b, LastAdded history k b := by
  induction history using List.reverseRecOn with
  | nil => simp at hadded
  | append_singleton history e ih =>
      -- Only an event about the symbol matters: an addition is the last then, and a removal there
      -- is none.
      by_cases hsymbol : e.symbol = k
      · cases e with
        | added b => exact ⟨b, lastAdded_concat.2 (Or.inl ⟨rfl, hsymbol⟩)⟩
        | removed symbol =>
            obtain rfl : symbol = k := hsymbol
            rcases getElem?_concat_eq_some.1 hadded with hearlier | ⟨-, hlast⟩
            · obtain ⟨hlt, -⟩ := List.getElem?_eq_some_iff.1 hearlier
              exact absurd (by simp) (hkept history.length hlt)
            · cases hlast
      · rcases getElem?_concat_eq_some.1 hadded with hearlier | ⟨-, rfl⟩
        · obtain ⟨b, hb⟩ := ih hearlier fun j hj hremoved =>
            hkept j hj (getElem?_concat_eq_some.2 (Or.inl hremoved))
          exact ⟨b, lastAdded_concat.2 (Or.inr ⟨hsymbol, hb⟩)⟩
        · exact absurd hkey hsymbol

namespace FirstAdded

theorem lt_length (h : FirstAdded history i k) : i < history.length := by
  obtain ⟨a, hadded, -⟩ := h.added
  exact (List.getElem?_eq_some_iff.1 hadded).1

/-- The first addition stays the first one until the symbol is removed. -/
theorem concat {e : Event α} (h : FirstAdded history i k) (he : e ≠ .removed k) :
    FirstAdded (history ++ [e]) i k where
  added := by
    obtain ⟨a, hadded, hkey⟩ := h.added
    exact ⟨a, getElem?_concat_eq_some.2 (Or.inl hadded), hkey⟩
  kept j hremoved := by
    rcases getElem?_concat_eq_some.1 hremoved with hearlier | ⟨-, hlast⟩
    · exact h.kept j hearlier
    · exact absurd hlast he
  first j a hj hadded hkey := by
    rcases getElem?_concat_eq_some.1 hadded with hearlier | ⟨rfl, -⟩
    · obtain ⟨j', hj', hbefore, hremoved⟩ := h.first j a hj hearlier hkey
      exact ⟨j', hj', hbefore, getElem?_concat_eq_some.2 (Or.inl hremoved)⟩
    · have hlt := h.lt_length
      omega

/-- A symbol that is not there is added for the first time. -/
theorem fresh (hkey : key a = k) (hnew : ∀ b, ¬ LastAdded history k b) :
    FirstAdded (history ++ [.added a]) history.length k where
  added := ⟨a, by simp, hkey⟩
  kept j hremoved := by
    rcases getElem?_concat_eq_some.1 hremoved with hearlier | ⟨-, hlast⟩
    · exact (List.getElem?_eq_some_iff.1 hearlier).1
    · cases hlast
  first j b hj hadded hkey' := by
    have hearlier : history[j]? = some (.added b) := by
      rwa [List.getElem?_append_left hj] at hadded
    -- Otherwise that addition, or a later one, would still count.
    by_contra hnone
    obtain ⟨c, hc⟩ := exists_lastAdded hearlier hkey' fun j' hj' hremoved =>
      hnone ⟨j', hj', (List.getElem?_eq_some_iff.1 hremoved).1,
        getElem?_concat_eq_some.2 (Or.inl hremoved)⟩
    exact hnew c hc

end FirstAdded

-- ================================================================ registries

/-- Whether a registry is what its history has made of it. -/
structure Registry.Follows (r : Registry α) (history : List (Event α)) : Prop where
  /-- No symbol is listed twice. -/
  nodup : r.keys.Nodup
  /-- Those are listed under which something is found. -/
  listed : ∀ k, k ∈ r.keys ↔ ∃ a, r.get? k = some a
  /-- They are listed in the order in which they were first added. -/
  ordered : ∃ places : List Nat, places.Pairwise (· < ·)
    ∧ List.Forall₂ (FirstAdded history) places r.keys
  /-- What is found is what was last added. -/
  found : ∀ k a, r.get? k = some a ↔ LastAdded history k a
  /-- Where it is required, what is not found is an error, and nothing else is. -/
  required : ∀ k fault, r.require k = .error fault ↔ r.get? k = none ∧ fault = .unknownSymbol k

namespace Registry

variable {r : Registry α}

/-- Of any registry, order and entries are what is left to tell. -/
theorem follows_of
    (hordered : ∃ places : List Nat, places.Pairwise (· < ·)
      ∧ List.Forall₂ (FirstAdded history) places r.keys)
    (hfound : ∀ k a, r.get? k = some a ↔ LastAdded history k a) : r.Follows history :=
  ⟨r.distinct, fun _ => mem_keys, hordered, hfound, fun _ _ => require_eq_error⟩

/-- What can be done to a registry. -/
inductive Change (α : Type u) where
  | add (a : α)
  | merge (entries : List α)
  | remove (symbol : String)

/-- A registry that has been changed. -/
def change (r : Registry α) : Change α → Registry α
  | .add a => r.add a
  | .merge entries => r.addAll entries
  | .remove k => r.remove k

/-- What happens in a change. -/
def Change.events : Change α → List (Event α)
  | add a => [.added a]
  | merge entries => entries.map .added
  | remove k => [.removed k]

/-- Entries of which some are left out, and what they are related to. -/
theorem forall₂_filter {β γ : Type} {R : β → γ → Prop} {l : List β} {l' : List γ}
    (h : List.Forall₂ R l l') (p : γ → Bool) :
    ∃ kept, kept.Sublist l ∧ List.Forall₂ (fun b c => R b c ∧ p c = true) kept (l'.filter p) := by
  induction h with
  | nil => exact ⟨[], .slnil, .nil⟩
  | @cons b c l l' hfirst _ ih =>
      obtain ⟨kept, hkept, hrelated⟩ := ih
      by_cases hc : p c = true
      · rw [List.filter_cons_of_pos hc]
        exact ⟨b :: kept, hkept.cons_cons b, .cons ⟨hfirst, hc⟩ hrelated⟩
      · rw [List.filter_cons_of_neg hc]
        exact ⟨kept, hkept.cons b, hrelated⟩

namespace Follows

theorem empty : (Registry.empty : Registry α).Follows [] := by
  refine follows_of ⟨[], .nil, .nil⟩ fun k a => ?_
  refine iff_of_false (by simp [Registry.empty, get?]) ?_
  rintro ⟨i, hadded, -⟩
  simp at hadded

/-- A symbol that is added keeps its place or comes last. -/
theorem add (h : r.Follows history) (a : α) : (r.add a).Follows (history ++ [.added a]) := by
  obtain ⟨places, hplaces, hfirst⟩ := h.ordered
  refine follows_of ?_ fun k b => ?_
  · have hkept : List.Forall₂ (FirstAdded (history ++ [.added a])) places r.keys :=
      hfirst.imp fun i k hi => hi.concat (by simp)
    rw [keys_add]
    -- A symbol that is listed keeps its place, and another is behind all that are.
    by_cases hknown : key a ∈ r.keys
    · rw [if_pos hknown]
      exact ⟨places, hplaces, hkept⟩
    · rw [if_neg hknown]
      have hnew : ∀ b, ¬ LastAdded history (key a) b := by
        intro b hb
        exact hknown (mem_keys.2 ⟨b, (h.found _ b).2 hb⟩)
      refine ⟨places ++ [history.length], ?_,
        List.rel_append hkept (.cons (.fresh rfl hnew) .nil)⟩
      rw [List.pairwise_append]
      refine ⟨hplaces, List.pairwise_singleton _ _, fun i hi j hj => ?_⟩
      have hbounded : List.Forall₂ (fun i k => i < history.length ∧ FirstAdded history i k)
          places r.keys :=
        hfirst.imp fun i k hi => ⟨hi.lt_length, hi⟩
      rw [List.mem_singleton.1 hj]
      exact ((List.forall₂_and_left _ _).1 hbounded).1 i hi
  · rw [get?_add, lastAdded_concat]
    by_cases hkey : key a = k
    · rw [if_pos hkey]
      simp only [Option.some.injEq, Event.added.injEq, Event.symbol, hkey, ne_eq, not_true_eq_false,
        false_and, or_false]
      constructor
      · intro hab
        exact ⟨hab, hab ▸ hkey⟩
      · exact And.left
    · rw [if_neg hkey, h.found]
      simp only [Event.added.injEq, Event.symbol, ne_eq, hkey, not_false_eq_true, true_and]
      refine ⟨Or.inr, fun hb => hb.resolve_left ?_⟩
      intro ⟨hab, hb⟩
      exact hkey (hab ▸ hb)

/-- A symbol that is removed leaves the others where they are. -/
theorem remove (h : r.Follows history) (k : String) :
    (r.remove k).Follows (history ++ [.removed k]) := by
  obtain ⟨places, hplaces, hfirst⟩ := h.ordered
  refine follows_of ?_ fun j a => ?_
  · obtain ⟨kept, hkept, hrelated⟩ := forall₂_filter hfirst fun j => j ≠ k
    rw [keys_remove]
    refine ⟨kept, hplaces.sublist hkept, hrelated.imp fun i j ⟨hi, hj⟩ => hi.concat ?_⟩
    rintro ⟨⟩
    simp at hj
  · rw [get?_remove, lastAdded_concat]
    by_cases hkey : j = k
    · rw [if_pos hkey]
      simp [Event.symbol, hkey]
    · rw [if_neg hkey, h.found]
      simp [Event.symbol, Ne.symm hkey]

/-- Whatever happens, a registry stays in step with its history. -/
theorem events (h : r.Follows history) (c : Change α) :
    (r.change c).Follows (history ++ c.events) := by
  cases c with
  | add a => exact h.add a
  | remove k => exact h.remove k
  | merge entries =>
      show (entries.foldl Registry.add r).Follows (history ++ entries.map .added)
      -- Merging is adding one entry after the other.
      induction entries generalizing r history with
      | nil => rwa [List.map_nil, List.append_nil]
      | cons a entries ih =>
          rw [List.foldl_cons, List.map_cons, List.append_cons]
          exact ih (h.add a)

end Follows

end Registry

-- =================================================================== tables

namespace SymbolTable

/-- What can be done to a table. -/
inductive Change where
  | operators (c : Registry.Change OperatorSymbol)
  | functions (c : Registry.Change FunctionSymbol)
  | validators (c : Registry.Change Validator)

/-- A table that has been changed. -/
def change (t : SymbolTable) : Change → SymbolTable
  | .operators c => { t with operators := t.operators.change c }
  | .functions c => { t with functions := t.functions.change c }
  | .validators c => { t with validators := t.validators.change c }

/-- The events of the registries of a table. -/
structure History where
  operators : List (Event OperatorSymbol) := []
  functions : List (Event FunctionSymbol) := []
  validators : List (Event Validator) := []

/-- A history with what happens in one more change. -/
def History.record (h : History) : Change → History
  | .operators c => { h with operators := h.operators ++ c.events }
  | .functions c => { h with functions := h.functions ++ c.events }
  | .validators c => { h with validators := h.validators ++ c.events }

/-- Whether a table is what its history has made of it. -/
structure Follows (t : SymbolTable) (h : History) : Prop where
  operators : t.operators.Follows h.operators
  functions : t.functions.Follows h.functions
  validators : t.validators.Follows h.validators

theorem follows_empty : empty.Follows {} :=
  ⟨.empty, .empty, .empty⟩

theorem Follows.change {t : SymbolTable} {h : History} (hfollows : t.Follows h) (c : Change) :
    (t.change c).Follows (h.record c) := by
  cases c with
  | operators c => exact { hfollows with operators := hfollows.operators.events c }
  | functions c => exact { hfollows with functions := hfollows.functions.events c }
  | validators c => exact { hfollows with validators := hfollows.validators.events c }

end SymbolTable

-- =============================================================== workspaces

namespace Workspace

/-- What can be done in a workspace. -/
inductive Action where
  | create
  | copy (number : Nat)
  | change (number : Nat) (c : SymbolTable.Change)

/-- The table that an action changes. -/
def Action.changed? : Action → Option Nat
  | change number _ => some number
  | _ => none

/-- A workspace after an action. -/
def perform (w : Workspace) : Action → Workspace
  | .create => ⟨w.tables ++ [.empty]⟩
  | .copy number => (w.copy number).1
  | .change number c => w.modify number (·.change c)

/-- A workspace after several actions. -/
def performAll (w : Workspace) (actions : List Action) : Workspace :=
  actions.foldl perform w

/-- The histories of all tables after an action. A copy has that of its model. -/
def recordAction (histories : List SymbolTable.History) : Action → List SymbolTable.History
  | .create => histories ++ [{}]
  | .copy number => histories ++ histories[number]?.toList
  | .change number c => histories.modify number (·.record c)

/-- The histories of all tables after several actions. -/
def histories (actions : List Action) : List SymbolTable.History :=
  actions.foldl recordAction []

variable {w : Workspace}

/-- Pairs that are related stay so if those in one place are changed. -/
theorem forall₂_modify {β γ : Type} {R : β → γ → Prop} {f : β → β} {g : γ → γ}
    (hchange : ∀ b c, R b c → R (f b) (g c)) {l : List β} {l' : List γ}
    (h : List.Forall₂ R l l') (n : Nat) : List.Forall₂ R (l.modify n f) (l'.modify n g) := by
  induction h generalizing n with
  | nil => simp
  | cons hfirst hrest ih =>
      cases n with
      | zero => exact .cons (hchange _ _ hfirst) hrest
      | succ n => exact .cons hfirst (ih n)

/-- Every action keeps the tables in step with their histories. -/
theorem follows_perform {histories : List SymbolTable.History}
    (h : List.Forall₂ SymbolTable.Follows w.tables histories) (action : Action) :
    List.Forall₂ SymbolTable.Follows (w.perform action).tables
      (recordAction histories action) := by
  cases action with
  | create => exact List.rel_append h (.cons SymbolTable.follows_empty .nil)
  | change number c => exact forall₂_modify (fun _ _ hfollows => hfollows.change c) h number
  | copy number =>
      refine List.rel_append h ?_
      -- A table that is not there has no copy, and no history is added either.
      by_cases hnumber : number < w.tables.length
      · have hnumber' : number < histories.length := h.length_eq ▸ hnumber
        rw [List.getElem?_eq_getElem hnumber, List.getElem?_eq_getElem hnumber', Option.map_some,
          SymbolTable.copy_eq]
        exact .cons (h.get hnumber hnumber') .nil
      · have hnumber' : ¬ number < histories.length := h.length_eq ▸ hnumber
        rw [List.getElem?_eq_none (Nat.not_lt.1 hnumber),
          List.getElem?_eq_none (Nat.not_lt.1 hnumber')]
        exact .nil

/-- Whatever is done, the tables are in step with their histories. -/
theorem follows_performAll {histories : List SymbolTable.History}
    (h : List.Forall₂ SymbolTable.Follows w.tables histories) (actions : List Action) :
    List.Forall₂ SymbolTable.Follows (w.performAll actions).tables
      (actions.foldl recordAction histories) := by
  induction actions generalizing w histories with
  | nil => exact h
  | cons action actions ih => exact ih (follows_perform h action)

/-- What an action does not change is as it was. -/
theorem table?_perform {number : Nat} (hnumber : number < w.tables.length) {action : Action}
    (haction : action.changed? ≠ some number) :
    (w.perform action).table? number = w.table? number
      ∧ number < (w.perform action).tables.length := by
  cases action with
  | create =>
      refine ⟨List.getElem?_append_left hnumber, ?_⟩
      exact Nat.lt_of_lt_of_le hnumber (List.length_append ▸ Nat.le_add_right _ _)
  | copy model =>
      refine ⟨List.getElem?_append_left hnumber, ?_⟩
      exact Nat.lt_of_lt_of_le hnumber (List.length_append ▸ Nat.le_add_right _ _)
  | change changed c =>
      have hne : changed ≠ number := fun heq => haction (congrArg some heq)
      exact ⟨table?_modify_ne _ hne, by simpa [perform, modify] using hnumber⟩

theorem table?_performAll {number : Nat} (hnumber : number < w.tables.length)
    {actions : List Action} (hactions : ∀ action ∈ actions, action.changed? ≠ some number) :
    (w.performAll actions).table? number = w.table? number := by
  induction actions generalizing w with
  | nil => rfl
  | cons action actions ih =>
      obtain ⟨hsame, hlength⟩ := table?_perform hnumber (hactions action List.mem_cons_self)
      have hrest := ih hlength fun later hlater => hactions later (List.mem_cons_of_mem _ hlater)
      exact hrest.trans hsame

/-- A copy is the same as its model. -/
theorem table?_copy (w : Workspace) (number : Nat) :
    (w.copy number).1.table? (w.copy number).2 = w.table? number := by
  show (w.tables ++ (w.tables[number]?.map SymbolTable.copy).toList)[w.tables.length]?
    = w.tables[number]?
  rw [List.getElem?_append_right (Nat.le_refl _), Nat.sub_self]
  cases w.tables[number]? with
  | none => rfl
  | some t =>
      rw [Option.map_some, SymbolTable.copy_eq]
      rfl

/-- Whatever is done with any number of tables from nothing, each is what its
history has made of it; a copy of any is the same as its model; and from then on
each stays as it is until it is changed itself. -/
theorem follows_histories (actions : List Action) :
    List.Forall₂ SymbolTable.Follows (performAll ⟨[]⟩ actions).tables (histories actions)
      ∧ ∀ number,
        ((performAll ⟨[]⟩ actions).copy number).1.table?
            ((performAll ⟨[]⟩ actions).copy number).2
          = (performAll ⟨[]⟩ actions).table? number
        ∧ ∀ later, number < (performAll ⟨[]⟩ actions).tables.length →
          (∀ action ∈ later, action.changed? ≠ some number) →
            (performAll ⟨[]⟩ (actions ++ later)).table? number
              = (performAll ⟨[]⟩ actions).table? number := by
  refine ⟨follows_performAll .nil actions, fun number => ⟨table?_copy _ number, ?_⟩⟩
  intro later hnumber hlater
  have hsplit : performAll ⟨[]⟩ (actions ++ later) = performAll (performAll ⟨[]⟩ actions) later :=
    List.foldl_append
  rw [hsplit]
  exact table?_performAll hnumber hlater

/-- A function that is known by its name. -/
def named (name : String) : FunctionSymbol where
  name := name
  implementation := fun _ _ => pure (.text name)

/-- A table with two functions and its copy. -/
def copying : List Action :=
  [.create, .change 0 (.functions (.merge [named "b", named "a"])), .copy 0]

/-- The first function of the table is removed and added again. -/
def changing : List Action :=
  [.change 0 (.functions (.remove "b")), .change 0 (.functions (.add (named "b")))]

/-- In the table the function comes last then, and in the copy it stays first. -/
theorem follows_histories_copying :
    (performAll ⟨[]⟩ (copying ++ changing)).table? 1 = (performAll ⟨[]⟩ copying).table? 1
      ∧ ((performAll ⟨[]⟩ (copying ++ changing)).table? 0).map (·.functions.keys)
        = some ["a", "b"]
      ∧ ((performAll ⟨[]⟩ (copying ++ changing)).table? 1).map (·.functions.keys)
        = some ["b", "a"] := by
  obtain ⟨-, hlater⟩ := follows_histories copying
  have hcopy := (hlater 1).2 changing (by decide) (by decide)
  exact ⟨hcopy, by decide, by decide⟩

end Workspace

end UnitCalc
