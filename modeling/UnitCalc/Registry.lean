/-
Ordered registries: entries listed in the order their keys first came in,
with no key twice.

Adding an entry under a known key replaces the entry in its place, so the
order tells when a key was first added since it was last removed. That no key
is listed twice is part of the type, so it is shown once for each operation
and never asked for again.

The two views are `keys` and `get?`; what an operation does to them is said
beside it, and nothing else needs to look at the list. What a registry holds
after a history of additions and removals is read off these equations in
`Proofs/Symbol/History`.
-/
namespace UnitCalc

/-- Types whose values are registered under a key of their own. -/
class Keyed (α : Type u) (κ : outParam (Type v)) where
  key : α → κ

/-- Entries in the order of their keys' first addition, each key once. -/
structure Registry (α : Type u) {κ : Type v} [Keyed α κ] where
  entries : List α
  distinct : (entries.map Keyed.key).Nodup

namespace Registry

variable {α : Type u} {κ : Type v} [DecidableEq κ] [Keyed α κ]

open Keyed

/-- The registry without entries. -/
def empty : Registry α := ⟨[], List.nodup_nil⟩

/-- The keys in order. -/
def keys (r : Registry α) : List κ :=
  r.entries.map key

/-- The entry under a key. -/
def get? (r : Registry α) (k : κ) : Option α :=
  r.entries.find? fun a => key a = k

/-- An entry is found under its own key. -/
theorem key_of_get? {r : Registry α} {k : κ} {a : α} (h : r.get? k = some a) : key a = k := by
  unfold get? at h
  simpa using List.find?_some h

/-- The key of an entry finds the entry. -/
theorem get?_of_mem {r : Registry α} {a : α} (h : a ∈ r.entries) : r.get? (key a) = some a := by
  unfold get?
  rw [List.find?_eq_some_iff_append]
  obtain ⟨as, bs, hentries⟩ := List.append_of_mem h
  refine ⟨decide_eq_true rfl, as, bs, hentries, ?_⟩
  intro b hb
  have hdistinct := r.distinct
  rw [hentries, List.map_append, List.map_cons, List.nodup_append] at hdistinct
  have hne : key b ≠ key a :=
    hdistinct.2.2 (key b) (List.mem_map_of_mem hb) (key a) List.mem_cons_self
  simpa using hne

/-- The keys that are listed are those that have an entry. -/
theorem mem_keys {r : Registry α} {k : κ} : k ∈ r.keys ↔ ∃ a, r.get? k = some a := by
  constructor
  · intro h
    obtain ⟨a, ha, hk⟩ := List.mem_map.1 h
    exact ⟨a, hk ▸ get?_of_mem ha⟩
  · intro ⟨a, ha⟩
    exact List.mem_map.2 ⟨a, List.mem_of_find?_eq_some ha, key_of_get? ha⟩

/-- Whether a key is registered. -/
def contains (r : Registry α) (k : κ) : Bool :=
  (r.get? k).isSome

/-- How many entries there are. -/
def size (r : Registry α) : Nat :=
  r.entries.length

-- ====================================================== additions

/-- Puts an entry in the place of the one with its key, or at the end. -/
def place (a : α) : List α → List α
  | [] => [a]
  | b :: bs => if key b = key a then a :: bs else b :: place a bs

theorem keys_place (a : α) (bs : List α) :
    (place a bs).map key =
      if key a ∈ bs.map key then bs.map key else bs.map key ++ [key a] := by
  induction bs with
  | nil => simp [place]
  | cons b bs ih =>
    by_cases h : key b = key a
    · simp [place, h]
    · have h' : key a ≠ key b := fun e => h e.symm
      simp only [place, h, ↓reduceIte, List.map_cons, ih, List.mem_cons, h', false_or]
      split <;> simp

theorem nodup_place {a : α} {bs : List α} (h : (bs.map key).Nodup) :
    ((place a bs).map key).Nodup := by
  rw [keys_place]
  split
  · exact h
  · next hnew =>
    rw [List.nodup_append]
    refine ⟨h, by simp, ?_⟩
    intro x hx y hy
    rw [List.mem_singleton] at hy
    rintro rfl
    exact hnew (hy ▸ hx)

theorem find?_place (a : α) (k : κ) (bs : List α) :
    (place a bs).find? (fun b => key b = k) =
      if key a = k then some a else bs.find? fun b => key b = k := by
  induction bs with
  | nil => by_cases hk : key a = k <;> simp [place, hk]
  | cons b bs ih =>
    by_cases h : key b = key a
    · by_cases hk : key a = k <;> simp [place, h, hk]
    · by_cases hk : key a = k
      · subst hk
        simpa [place, h] using ih
      · simp only [place, h, ↓reduceIte, List.find?_cons, ih, hk]

theorem mem_place {a b : α} {bs : List α} (h : b ∈ place a bs) : b = a ∨ b ∈ bs := by
  induction bs with
  | nil => exact Or.inl (List.mem_singleton.1 h)
  | cons c bs ih =>
    unfold place at h
    split at h
    · exact (List.mem_cons.1 h).imp_right (List.mem_cons_of_mem c)
    · rcases List.mem_cons.1 h with rfl | h
      · exact Or.inr List.mem_cons_self
      · exact (ih h).imp_right (List.mem_cons_of_mem c)

/-- An entry whose key is new comes last. -/
theorem place_of_notMem {a : α} {bs : List α} (h : key a ∉ bs.map key) :
    place a bs = bs ++ [a] := by
  induction bs with
  | nil => rfl
  | cons b bs ih =>
    rw [List.map_cons, List.mem_cons, not_or] at h
    rw [place, if_neg (Ne.symm h.1), ih h.2, List.cons_append]

/-- Registers an entry under its key. -/
def add (r : Registry α) (a : α) : Registry α :=
  ⟨place a r.entries, nodup_place r.distinct⟩

/-- A known key keeps its place and a new one comes last. -/
theorem keys_add (r : Registry α) (a : α) :
    (r.add a).keys = if key a ∈ r.keys then r.keys else r.keys ++ [key a] :=
  keys_place a r.entries

theorem mem_add {r : Registry α} {a b : α} (h : b ∈ (r.add a).entries) :
    b = a ∨ b ∈ r.entries :=
  mem_place h

theorem get?_add (r : Registry α) (a : α) (k : κ) :
    (r.add a).get? k = if key a = k then some a else r.get? k :=
  find?_place a k r.entries

/-- Registers entries one after the other. -/
def addAll (r : Registry α) (entries : List α) : Registry α :=
  entries.foldl add r

/-- The registry of a list of entries. -/
def ofList (entries : List α) : Registry α :=
  empty.addAll entries

/-- Entries under keys of their own are listed as they came. -/
theorem entries_addAll {r : Registry α} {entries : List α}
    (h : ((r.entries ++ entries).map key).Nodup) :
    (r.addAll entries).entries = r.entries ++ entries := by
  induction entries generalizing r with
  | nil => exact (List.append_nil _).symm
  | cons a entries ih =>
    have hnew : key a ∉ r.entries.map key := by
      intro hmem
      rw [List.map_append, List.map_cons, List.nodup_append] at h
      exact h.2.2 (key a) hmem (key a) List.mem_cons_self rfl
    have hadd : (r.add a).entries = r.entries ++ [a] := place_of_notMem hnew
    have hrest : (r.add a).entries ++ entries = r.entries ++ a :: entries := by
      rw [hadd, List.append_assoc, List.singleton_append]
    unfold addAll at ih ⊢
    rw [List.foldl_cons, ih (hrest ▸ h), hrest]

theorem entries_ofList {entries : List α} (h : (entries.map key).Nodup) :
    (ofList entries).entries = entries :=
  entries_addAll h

/-- A registry to which the entries of another were added in their order. -/
def copy (r : Registry α) : Registry α :=
  ofList r.entries

/-- A copy has the same entries in the same order. -/
theorem copy_eq (r : Registry α) : r.copy = r := by
  have hentries : (ofList r.entries).entries = r.entries := entries_ofList r.distinct
  show ofList r.entries = r
  generalize ofList r.entries = copied at hentries
  obtain ⟨entries, distinct⟩ := copied
  obtain rfl : entries = r.entries := hentries
  rfl

-- ======================================================= removals

/-- Takes the entry under a key out. -/
def remove (r : Registry α) (k : κ) : Registry α where
  entries := r.entries.filter fun a => key a ≠ k
  distinct := (List.filter_sublist.map key).nodup r.distinct

theorem keys_remove (r : Registry α) (k : κ) :
    (r.remove k).keys = r.keys.filter fun j => j ≠ k := by
  simp only [keys, remove, List.filter_map, Function.comp_def]

theorem mem_remove {r : Registry α} {k : κ} {a : α} (h : a ∈ (r.remove k).entries) :
    a ∈ r.entries :=
  (List.mem_filter.1 h).1

theorem get?_remove (r : Registry α) (k j : κ) :
    (r.remove k).get? j = if j = k then none else r.get? j := by
  unfold remove get?
  rw [List.find?_filter]
  split
  · next h => simp [h]
  · next h =>
    congr 1
    funext a
    by_cases ha : key a = j
    · simp [ha, h]
    · simp [ha]

end Registry

end UnitCalc
