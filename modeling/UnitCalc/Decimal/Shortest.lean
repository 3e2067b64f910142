/-
The shortest decimal that reads back as a given float.

For one digit, two digits and so on the value's two neighbours with that many
digits are tried, the nearer first (of two equally near the even one); the
first that reads back is taken. Seventeen digits always suffice, but nothing
here rests on it: the exact expansion, which every finite float has, closes
the search. So `shortest` reads back whatever it is given
(`shortest_cases`, and for the expansion `toFloat_exact` in
`Proofs/Decimal/Scale`).
-/
import UnitCalc.Decimal.Basic

namespace UnitCalc.Decimal

/-- How many digits the whole part of a positive number of quanta has; zero
or less when the number starts with that many zeros behind the point. The
scale `10 ^ 400` makes every positive number of quanta exceed one. -/
def pointOf (quanta : Nat) : Int :=
  ((Nat.toDigits 10 (Nat.pow 10 400 * quanta / Binary.unit)).length : Int) - 400

/-- A number of quanta over a power of ten, as a ratio. -/
def scaled (quanta : Nat) (exponent : Int) : Nat × Nat :=
  if 0 ≤ exponent then (quanta, Binary.unit * Nat.pow 10 exponent.natAbs)
  else (Nat.pow 10 exponent.natAbs * quanta, Binary.unit)

/-- The two decimals with `n` digits around a number of quanta, the nearer
first. -/
def neighbours (quanta n : Nat) : List Decimal :=
  let exponent := pointOf quanta - n
  let (num, den) := scaled quanta exponent
  let below := num / den
  let near := roundDiv .toEven num den
  let far := if near = below then below + 1 else below
  [⟨false, near, exponent⟩, ⟨false, far, exponent⟩]

/-- Whether a decimal reads back as the float of so many quanta. -/
def readsBack (quanta : Nat) (d : Decimal) : Bool :=
  Binary.ofFloat d.toFloat == .finite false quanta

/-- All digits of a number of quanta: `2 ^ -1074` is `5 ^ 1074 / 10 ^ 1074`. -/
def exact (quanta : Nat) : Decimal :=
  ⟨false, Nat.pow 5 1074 * quanta, -1074⟩

/-- The shortest decimal that reads back as the float of so many quanta, of
the shortest the nearest. -/
def shortest (quanta : Nat) : Decimal :=
  ((List.range' 1 17).findSome? fun n => (neighbours quanta n).find? (readsBack quanta)).getD
    (exact quanta)

/-- What `shortest` gives has been read back, or has all digits. -/
theorem shortest_cases (quanta : Nat) :
    readsBack quanta (shortest quanta) = true ∨ shortest quanta = exact quanta := by
  unfold shortest
  cases h : (List.range' 1 17).findSome? fun n =>
      (neighbours quanta n).find? (readsBack quanta) with
  | none => exact Or.inr rfl
  | some d =>
    obtain ⟨n, _, hn⟩ := List.exists_of_findSome?_eq_some h
    exact Or.inl (List.find?_some hn)

end UnitCalc.Decimal
