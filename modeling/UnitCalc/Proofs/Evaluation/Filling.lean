/-
Whether required parameters get arguments.

The number of arguments is checked against the number of required parameters,
and the arguments themselves against the parameters in their places. The
fewest arguments are so checked against the leading parameters, whichever of
them are required.

# When the two checks agree

Required parameters are filled when they can be given arguments in their order
(`FunctionSymbol.Filled`). The places of as many arguments as required
parameters leave no choice (`place_eq_self`), so the two checks fill the
required parameters exactly if each of them accepts whatever the leading
parameter of the same place accepts (`required_filled_iff`). One direction
needs a call for values that are accepted: `Expr.producing` has any value for
an answer, whatever is around it. Should a leading parameter accept nothing,
there is no call to look at, and nothing is promised.

Functions that name their required parameters first are of this kind
(`FunctionSymbol.aligned_of_required_first`), and a function that names them
last need not be (`required_unfilled`).
-/
import Mathlib.Order.Fin.Basic
import Mathlib.Data.Fintype.EquivFin
import Mathlib.Tactic.Choose
import Mathlib.Tactic.Push
import UnitCalc.Proofs.Evaluation.Contract

namespace UnitCalc

-- =============================================================== parameters

namespace FunctionSymbol

/-- The parameters that must be given. -/
def required (f : FunctionSymbol) : List Parameter :=
  f.parameters.filter Parameter.isRequired

/-- The parameters that the fewest arguments are checked against. -/
def leading (f : FunctionSymbol) : List Parameter :=
  f.parameters.take f.minArity

theorem length_required (f : FunctionSymbol) : f.required.length = f.minArity :=
  List.countP_eq_length_filter.symm

theorem length_leading (f : FunctionSymbol) : f.leading.length = f.minArity := by
  unfold leading
  rw [List.length_take]
  exact Nat.min_eq_left List.countP_le_length

end FunctionSymbol

namespace Environment

/-- Whether the validator of a parameter is registered and accepts a value. -/
def Accepts (env : Environment) (parameter : Parameter) (v : Value) : Prop :=
  ∃ validator, env.validators.get? parameter.type = some validator ∧ validator.accepts v = .ok true

/-- Whether the validators of all parameters of a function are registered. -/
def Registers (env : Environment) (f : FunctionSymbol) : Prop :=
  ∀ parameter ∈ f.parameters, ∃ validator, env.validators.get? parameter.type = some validator

variable {env : Environment} {f : FunctionSymbol} {parameter : Parameter} {v : Value}

theorem Accepts.admits (h : env.Accepts parameter v) : env.Admits parameter v := by
  obtain ⟨validator, hvalidator, haccepts⟩ := h
  intro other hother
  obtain rfl := Option.some.inj (hvalidator.symm.trans hother)
  exact haccepts

theorem Registers.accepts (h : env.Registers f) (hmem : parameter ∈ f.parameters)
    (hadmits : env.Admits parameter v) : env.Accepts parameter v := by
  obtain ⟨validator, hvalidator⟩ := h parameter hmem
  exact ⟨validator, hvalidator, hadmits validator hvalidator⟩

end Environment

/-- Whether each required parameter can be given an argument of its own, in
their order, that its validator accepts. -/
def FunctionSymbol.Filled (f : FunctionSymbol) (env : Environment) (vs : List Value) : Prop :=
  ∃ place : Fin f.required.length ↪o Fin vs.length,
    ∀ i, env.Accepts f.required[i] vs[place i]

/-- Whether each required parameter accepts whatever the leading parameter of
the same place accepts. -/
def FunctionSymbol.Aligned (f : FunctionSymbol) (env : Environment) : Prop :=
  List.Forall₂ (fun leading required => ∀ v, env.Accepts leading v → env.Accepts required v)
    f.leading f.required

-- ================================================================ arguments

namespace Arguments

variable {env : Environment} {name : String} {parameters : List Parameter} {es : List Expr}
  {p q : Progress} {k : Nat} {vs : List Value}

/-- The arguments that are taken have values, each admitted by the parameter in
its place. -/
theorem Taken.admits (h : Taken env name parameters es p k vs q) :
    vs.length = k ∧ ∀ i (hi : i < vs.length), ∃ parameter, parameters[i]? = some parameter
      ∧ env.Admits parameter vs[i] := by
  induction h with
  | none => exact ⟨rfl, fun i hi => absurd hi (Nat.not_lt_zero i)⟩
  | @next k vs q after e parameter v before argument declared value admits ih =>
      obtain ⟨hlength, hadmits⟩ := ih
      refine ⟨by rw [List.length_append, hlength, List.length_singleton], fun i hi => ?_⟩
      rcases Nat.lt_or_ge i vs.length with hlt | hge
      · rw [List.getElem_append_left hlt]
        exact hadmits i hlt
      · rw [List.length_append, List.length_singleton] at hi
        obtain rfl : i = vs.length := by omega
        rw [List.getElem_concat_length rfl]
        exact ⟨parameter, hlength ▸ declared, admits⟩

end Arguments

-- ================================================================ the values

namespace Expr

/-- A call that has a value whatever is around it. -/
def producing (v : Value) : Expr :=
  .call { name := "value", implementation := Implementation.constant v } [] 0

variable {env : Environment} {f : FunctionSymbol} {es : List Expr} {position : Nat}
  {p q : Progress} {vs : List Value}

theorem run_producing (env : Environment) (v : Value) (hnone : p.memo.value? = none) :
    ∃ after, ((producing v).evaluate env).run p = (.ok v, after) :=
  ⟨_, run_call_taken hnone ⟨Nat.le_refl 0, Nat.le_refl 0⟩ .none⟩

/-- Values that the parameters admit are taken, at a node of which nothing is
known. -/
theorem taken_producing (name : String) {parameters : List Parameter}
    (hfresh : ∀ i, (p.memo.child i).value? = none)
    (hadmits : ∀ i (hi : i < vs.length), ∃ parameter, parameters[i]? = some parameter
      ∧ env.Admits parameter vs[i]) :
    ∀ k ≤ vs.length, ∃ q, Arguments.Taken env name parameters (vs.map producing) p k (vs.take k) q
      ∧ ∀ i ≥ k, (q.memo.child i).value? = none := by
  intro k
  induction k with
  | zero => exact fun _ => ⟨p, .none, fun i _ => hfresh i⟩
  | succ k ih =>
      intro hk
      obtain ⟨q, htaken, hopen⟩ := ih (Nat.le_of_succ_le hk)
      obtain ⟨parameter, hdeclared, hadmitted⟩ := hadmits k hk
      have hargument : (vs.map producing)[k]? = some (producing vs[k]) := by
        rw [List.getElem?_map, List.getElem?_eq_getElem hk, Option.map_some]
      -- The next value is computed at its own child, of which nothing is known yet.
      obtain ⟨below, hbelow⟩ := @run_producing { q with memo := q.memo.child k } env vs[k]
        (hopen k (Nat.le_refl k))
      have hvalue : (Evaluation.below k ((producing vs[k]).evaluate env)).run q
          = (.ok vs[k], { below with memo := q.memo.withChild k below.memo }) := by
        show Evaluation.below k ((producing vs[k]).evaluate env) q = _
        unfold Evaluation.below
        rw [hbelow]
      rw [List.take_succ_eq_append_getElem hk]
      refine ⟨_, .next htaken hargument hdeclared hvalue hadmitted, fun i hi => ?_⟩
      have hmemo : (env.admitted name k parameter
          { below with memo := q.memo.withChild k below.memo }).memo
          = q.memo.withChild k below.memo := by
        unfold Environment.admitted
        split <;> rfl
      rw [hmemo, Memo.child_withChild, if_neg (by omega)]
      exact hopen i (by omega)

/-- Only a call whose value is not known invokes anything. -/
theorem Invokes.value?_eq_none (h : Invokes env f es position p vs q) : p.memo.value? = none := by
  cases hvalue : p.memo.value? with
  | none => rfl
  | some v =>
      have hfails := (h.run_failing .stackUnderflow).symm.trans (evaluate_known env _ hvalue)
      cases congrArg Prod.fst hfails

theorem Invokes.taken (h : Invokes env f es position p vs q) : f.Accommodates es.length
    ∧ Arguments.Taken env f.name f.parameters es p es.length vs q :=
  (invokes_iff h.value?_eq_none).1 h

/-- Some call hands over whatever values the parameters admit. -/
theorem invokes_producing (hcount : f.Accommodates vs.length)
    (hadmits : ∀ i (hi : i < vs.length), ∃ parameter, f.parameters[i]? = some parameter
      ∧ env.Admits parameter vs[i]) (hnone : p.memo.value? = none)
    (hfresh : ∀ i, (p.memo.child i).value? = none) :
    ∃ q, Invokes env f (vs.map producing) position p vs q := by
  obtain ⟨q, htaken, -⟩ := taken_producing f.name hfresh hadmits vs.length (Nat.le_refl vs.length)
  have hlength : (vs.map producing).length = vs.length := List.length_map producing
  rw [List.take_length] at htaken
  refine ⟨q, (invokes_iff hnone).2 ⟨?_, ?_⟩⟩
  · rw [hlength]
    exact hcount
  · rw [hlength]
    exact htaken

/-- What is handed over begins with values that the leading parameters
accept. -/
theorem Invokes.leading (hregisters : env.Registers f) (h : Invokes env f es position p vs q) :
    f.leading.length ≤ vs.length
      ∧ ∀ i (hi : i < f.leading.length) (hv : i < vs.length), env.Accepts f.leading[i] vs[i] := by
  obtain ⟨⟨hleast, -⟩, htaken⟩ := h.taken
  obtain ⟨hlength, hadmits⟩ := htaken.admits
  refine ⟨by rw [f.length_leading, hlength]; exact hleast, fun i hi hv => ?_⟩
  obtain ⟨parameter, hdeclared, hadmitted⟩ := hadmits i hv
  have hsame : f.leading[i] = parameter := by
    obtain ⟨hdeclared, rfl⟩ := List.getElem?_eq_some_iff.1 hdeclared
    exact List.getElem_take
  rw [hsame]
  exact hregisters.accepts (List.mem_of_getElem? hdeclared) hadmitted

/-- Where the required parameters are aligned with the leading ones, whatever is
handed over fills them. -/
theorem Invokes.filled (hregisters : env.Registers f) (haligned : f.Aligned env)
    (h : Invokes env f es position p vs q) : f.Filled env vs := by
  obtain ⟨hsame, haligned⟩ := List.forall₂_iff_get.1 haligned
  obtain ⟨hle, hleading⟩ := h.leading hregisters
  -- Each required parameter takes the argument of its own place.
  refine ⟨Fin.castLEOrderEmb (hsame ▸ hle), fun i => ?_⟩
  have hi : (i : Nat) < f.leading.length := Nat.lt_of_lt_of_eq i.isLt hsame.symm
  exact haligned i hi i.isLt _ (hleading i hi (Nat.lt_of_lt_of_le hi hle))

/-- Some call hands over any values that the leading parameters accept. -/
theorem invokes_leading (env : Environment) (f : FunctionSymbol)
    (hlength : vs.length = f.leading.length)
    (haccepts : ∀ i (hi : i < f.leading.length) (hv : i < vs.length),
      env.Accepts f.leading[i] vs[i]) :
    ∃ q, Invokes env f (vs.map producing) 0 dealt vs q := by
  refine invokes_producing ⟨?_, ?_⟩ (fun i hi => ?_) rfl fun _ => rfl
  · rw [hlength, f.length_leading]
  · rw [hlength, f.length_leading]
    exact List.countP_le_length
  · have hi' : i < f.leading.length := by
      rw [← hlength]
      exact hi
    refine ⟨f.leading[i], ?_, (haccepts i hi' hi).admits⟩
    unfold FunctionSymbol.leading at hi' ⊢
    rw [List.getElem_take, List.getElem?_eq_getElem]

end Expr

-- ============================================================ filled parameters

/-- As many places as there are leave no choice. -/
theorem place_eq_self {m n : Nat} (h : m = n) (place : Fin m ↪o Fin n) (i : Fin m) :
    (place i : Nat) = i := by
  subst h
  have hall : Function.Surjective place := Finite.surjective_of_injective place.injective
  exact Fin.coe_orderIso_apply (RelIso.ofSurjective place hall) i

namespace FunctionSymbol

variable {env : Environment} {f : FunctionSymbol}

/-- A function whose required parameters come first is aligned. -/
theorem aligned_of_required_first (h : f.leading = f.required) (env : Environment) :
    f.Aligned env := by
  unfold Aligned
  rw [h]
  exact List.forall₂_same.2 fun _ _ _ haccepts => haccepts

/-- Of the fewest arguments each is for the required parameter of its place. -/
theorem Filled.accepts {vs : List Value} (h : f.Filled env vs)
    (hlength : vs.length = f.required.length) (i : Nat) (hi : i < f.required.length)
    (hv : i < vs.length) : env.Accepts f.required[i] vs[i] := by
  obtain ⟨place, haccepts⟩ := h
  have hplace := place_eq_self hlength.symm place ⟨i, hi⟩
  have haccepted := haccepts ⟨i, hi⟩
  simp only [Fin.getElem_fin, hplace] at haccepted
  exact haccepted

/-- The required parameters of a function, all of whose validators are
registered, are filled in every call that reaches its implementation exactly in
these cases: a leading parameter accepts nothing, so that no call does; or each
required parameter accepts whatever the leading parameter of the same place
accepts. -/
theorem required_filled_iff (hregisters : env.Registers f) :
    (∀ es position p vs q, Expr.Invokes env f es position p vs q → f.Filled env vs)
      ↔ (∃ parameter ∈ f.leading, ∀ v, ¬ env.Accepts parameter v) ∨ f.Aligned env := by
  have hsame : f.leading.length = f.required.length := by rw [length_leading, length_required]
  constructor
  · intro hfilled
    by_cases hnothing : ∃ parameter ∈ f.leading, ∀ v, ¬ env.Accepts parameter v
    · exact Or.inl hnothing
    · push Not at hnothing
      refine Or.inr (List.forall₂_iff_get.2 ⟨hsame, fun k hk hk' v haccepted => ?_⟩)
      -- The value in question stands in its place, and others that are accepted in theirs.
      have hvalues : ∀ i : Fin f.leading.length, ∃ w, env.Accepts f.leading[i] w
          ∧ (i = ⟨k, hk⟩ → w = v) := by
        intro i
        by_cases heq : i = ⟨k, hk⟩
        · subst heq
          exact ⟨v, haccepted, fun _ => rfl⟩
        · obtain ⟨w, hw⟩ := hnothing _ (List.getElem_mem i.isLt)
          exact ⟨w, hw, fun h => absurd h heq⟩
      choose values haccepts hvalue using hvalues
      have hleading : ∀ i (hi : i < f.leading.length) (hv : i < (List.ofFn values).length),
          env.Accepts f.leading[i] (List.ofFn values)[i] := by
        intro i hi hv
        rw [List.getElem_ofFn]
        exact haccepts ⟨i, hi⟩
      obtain ⟨q, hinvokes⟩ := Expr.invokes_leading env f List.length_ofFn hleading
      have hlength : (List.ofFn values).length = f.required.length := by
        rw [List.length_ofFn, hsame]
      have hfound := (hfilled _ _ _ _ _ hinvokes).accepts hlength k hk' (hlength ▸ hk')
      rw [List.getElem_ofFn, hvalue ⟨k, hk⟩ rfl] at hfound
      exact hfound
  · rintro (⟨parameter, hmem, hnothing⟩ | haligned) es position p vs q h
    · obtain ⟨hle, hleading⟩ := h.leading hregisters
      obtain ⟨i, hi, rfl⟩ := List.getElem_of_mem hmem
      exact absurd (hleading i hi (Nat.lt_of_lt_of_le hi hle)) (hnothing _)
    · exact h.filled hregisters haligned

/-- A number that may be left out does not keep a text from its parameter. -/
theorem required_filled_labelled :
    (labelledCalculator.environment "f(5)").Registers labelled
      ∧ ∀ es position p vs q,
        Expr.Invokes (labelledCalculator.environment "f(5)") labelled es position p vs q →
          labelled.Filled (labelledCalculator.environment "f(5)") vs := by
  have hregisters : (labelledCalculator.environment "f(5)").Registers labelled := by
    intro parameter hmem
    have hlisted : parameter ∈ ([{ mode := .optional }, { type := Parameter.string }] :
      List Parameter) := hmem
    rw [List.mem_pair] at hlisted
    rcases hlisted with rfl | rfl
    · exact ⟨.numeric, rfl⟩
    · exact ⟨.string, rfl⟩
  refine ⟨hregisters, (required_filled_iff hregisters).2 (Or.inr ?_)⟩
  exact .cons (fun v _ => ⟨.string, rfl, rfl⟩) .nil

/-- A function of a text that may be left out and a number. -/
def mislaid : FunctionSymbol :=
  { labelled with parameters := [{ type := Parameter.string, mode := .optional }, {}] }

/-- The calculator that knows this function besides the standard ones. -/
def mislaidCalculator : Calculator :=
  .of (SymbolTable.standard.addFunction mislaid) none {}

/-- A text alone is taken for the one that may be left out, and the function is
carried out without its number. -/
theorem required_unfilled :
    (mislaidCalculator.environment "f(hello)").Registers mislaid
      ∧ Expr.Invokes (mislaidCalculator.environment "f(hello)") mislaid [.literal "hello" 2] 0
          Expr.dealt [.text "hello"]
          ⟨.node none none [.node (some (.text "hello")) none []], Expr.dealt.journal⟩
      ∧ ¬ mislaid.Filled (mislaidCalculator.environment "f(hello)") [.text "hello"]
      ∧ ((mislaidCalculator.demand "f(hello)").run
          { journal := { draws := { dice := .lowest } } }).1 = .ok (.number 1.0) := by
  refine ⟨fun parameter hmem => ?_, ?_, ?_, by decide +kernel⟩
  · have hlisted : parameter ∈ ([{ type := Parameter.string, mode := .optional }, {}] :
      List Parameter) := hmem
    rw [List.mem_pair] at hlisted
    rcases hlisted with rfl | rfl
    · exact ⟨.string, rfl⟩
    · exact ⟨.numeric, rfl⟩
  · refine (Expr.invokes_iff rfl).2 ⟨⟨by decide, by decide⟩, ?_⟩
    have hadmits : (mislaidCalculator.environment "f(hello)").Admits
        { type := Parameter.string, mode := .optional } (.text "hello") := by
      intro validator hvalidator
      cases hvalidator
      rfl
    exact .next .none rfl rfl rfl hadmits
  · intro hfilled
    obtain ⟨validator, hvalidator, haccepts⟩ := hfilled.accepts rfl 0 (by decide) (by decide)
    cases hvalidator
    exact absurd haccepts (by decide)

end FunctionSymbol

end UnitCalc
