/-
The range of the finite floats.

None is above `greatest` (`quanta_le`), a whole number, and no ratio up to it
is rounded beyond (`nearestBits_lt`). So the whole parts of a finite float
(`whole_parts`), the whole numbers between two such parts, and the fractions
of them by which random numbers are drawn, have floats of their own
(`nearest?_isSome`).

# Why rounding stays inside

The bits of the nearest float are its exponent and its digits written one
behind the other, so they are bounded if the two are (`scaled_lt`). A ratio of
fewer digits than the greatest float may be carried to the next power of two,
which still is in the range. Only at the greatest exponent would a carry leave
it, and there the ratio is no more than the greatest mantissa, a whole number
that rounding does not pass (`roundDiv_le`).

The powers here are too large to be evaluated. They are kept as `Nat.pow`
applied to a name, and only those up to `2 ^ 53` are ever computed.
-/
import UnitCalc.Proofs.Binary.Model

namespace UnitCalc

/-- Up to a whole number the nearest one goes no further. -/
theorem roundDiv_le (tie : Tie) {n d bound : Nat} (hd : 0 < d) (h : n ≤ bound * d) :
    roundDiv tie n d ≤ bound := by
  have hnear := (roundDiv_near tie n hd).2
  by_cases hle : roundDiv tie n d ≤ bound
  · exact hle
  · -- A rounding beyond the bound would be off by more than a half.
    have hmore : (bound + 1) * d ≤ roundDiv tie n d * d :=
      Nat.mul_le_mul_right d (Nat.lt_of_not_le hle)
    rw [Nat.succ_mul] at hmore
    omega

theorem twoPow_pos (a : Nat) : 0 < Nat.pow 2 a :=
  Nat.two_pow_pos a

theorem twoPow_add (a b : Nat) : Nat.pow 2 (a + b) = Nat.pow 2 a * Nat.pow 2 b :=
  Nat.pow_add 2 a b

theorem log2_lt_of_lt_twoPow {n a : Nat} (ha : 0 < a) (h : n < Nat.pow 2 a) : Nat.log2 n < a := by
  by_cases hzero : n = 0
  · rw [hzero]
    exact ha
  · exact (Nat.log2_lt hzero).2 h

namespace Binary

/-- The greatest finite float. -/
def greatest : Nat := Nat.pow 2 971 * (Nat.pow 2 53 - 1)

theorem unit_pos : 0 < unit := by
  unfold unit
  apply twoPow_pos

theorem greatest_pos : 0 < greatest := by
  unfold greatest
  apply Nat.mul_pos
  · apply twoPow_pos
  · decide

theorem unit_mul_greatest : unit * greatest = Nat.pow 2 (1074 + 971) * (Nat.pow 2 53 - 1) := by
  unfold unit greatest
  -- With names for the exponents nothing evaluates the powers.
  generalize 1074 = a
  generalize 971 = b
  rw [twoPow_add, Nat.mul_assoc]

-- ================================================================ rounding

/-- A ratio of at most 53 binary digits with `top` zeros behind them is kept
in that many. -/
theorem scaled_lt (tie : Tie) (top : Nat) {n d : Nat} (hd : 0 < d)
    (h : n ≤ Nat.pow 2 top * (Nat.pow 2 53 - 1) * d) :
    let shift := Nat.log2 (n / d) - 52
    Nat.pow 2 52 * shift + roundDiv tie n (Nat.pow 2 shift * d) < (top + 2) * Nat.pow 2 52 := by
  have hquotient : n / d < Nat.pow 2 (top + 53) := by
    refine Nat.lt_of_le_of_lt (Nat.div_le_of_le_mul (by rwa [Nat.mul_comm] at h)) ?_
    rw [twoPow_add]
    exact Nat.mul_lt_mul_of_pos_left (by decide) (twoPow_pos top)
  have hlog := log2_lt_of_lt_twoPow (Nat.succ_pos _) hquotient
  intro shift
  have hscale : 0 < Nat.pow 2 shift * d := Nat.mul_pos (twoPow_pos shift) hd
  have hstep : Nat.pow 2 52 = 4503599627370496 := rfl
  have hfull : Nat.pow 2 53 = 9007199254740992 := rfl
  by_cases htop : shift = top
  · -- With the most zeros the rounding stops below the next power.
    have hround : roundDiv tie n (Nat.pow 2 shift * d) ≤ Nat.pow 2 53 - 1 := by
      refine roundDiv_le tie hscale ?_
      rw [htop, ← Nat.mul_assoc, Nat.mul_comm (Nat.pow 2 53 - 1)]
      exact h
    rw [hfull] at hround
    rw [hstep]
    omega
  · -- With fewer a carry is harmless.
    have hround : roundDiv tie n (Nat.pow 2 shift * d) ≤ Nat.pow 2 53 := by
      refine roundDiv_le tie hscale ?_
      have hlt : n / d < Nat.pow 2 (53 + shift) := by
        refine Nat.lt_of_lt_of_le Nat.lt_log2_self (Nat.pow_le_pow_right (by decide) ?_)
        omega
      rw [← Nat.mul_assoc, ← twoPow_add]
      exact Nat.le_of_lt ((Nat.div_lt_iff_lt_mul hd).1 hlt)
    rw [hfull] at hround
    rw [hstep]
    omega

/-- Quanta up to those of the greatest float stay finite. -/
theorem nearestBits_lt (tie : Tie) {n d : Nat} (hd : 0 < d) (h : n ≤ unit * greatest * d) :
    nearestBits tie n d < infinityBits := by
  rw [unit_mul_greatest] at h
  have hscaled := scaled_lt tie (1074 + 971) hd h
  unfold nearestBits
  exact Nat.lt_of_le_of_lt (Nat.min_le_right _ _) hscaled

/-- A ratio up to the greatest float has a float. -/
theorem nearest?_isSome (negative : Bool) {n d : Nat} (hd : 0 < d) (h : n ≤ greatest * d) :
    ∃ x, nearest? negative n d = some x := by
  refine ⟨nearest negative n d, if_pos (nearestBits_lt .toEven hd ?_)⟩
  rw [Nat.mul_assoc]
  exact Nat.mul_le_mul_left unit h

-- ============================================================= whole parts

/-- No finite float is above the greatest. -/
theorem quanta_le {x : Float} {negative : Bool} {quanta : Nat}
    (h : ofFloat x = .finite negative quanta) : quanta ≤ unit * greatest := by
  rw [unit_mul_greatest]
  unfold ofFloat ofBits at h
  generalize x.toBits.toNat = bits at h
  have hfraction : bits % Nat.pow 2 52 < 4503599627370496 := Nat.mod_lt bits (twoPow_pos 52)
  have hexponent : bits / Nat.pow 2 52 % Nat.pow 2 11 < 2048 := Nat.mod_lt _ (twoPow_pos 11)
  have hstep : Nat.pow 2 52 = 4503599627370496 := rfl
  have hfull : Nat.pow 2 53 = 9007199254740992 := rfl
  simp only at h
  split at h
  · split at h <;> cases h
  · split at h
    · cases h
      -- Subnormal numbers are below the least normal one.
      have hsubnormal : bits % Nat.pow 2 52 ≤ Nat.pow 2 53 - 1 := by
        rw [hfull]
        omega
      apply Nat.le_trans hsubnormal
      apply Nat.le_mul_of_pos_left
      apply twoPow_pos
    · cases h
      apply Nat.mul_le_mul
      · apply Nat.pow_le_pow_right (by decide)
        omega
      · rw [hfull]
        omega

theorem div_unit_le {quanta : Nat} (h : quanta ≤ unit * greatest) : quanta / unit ≤ greatest :=
  Nat.div_le_of_le_mul h

theorem ceil_unit_le {quanta : Nat} (h : quanta ≤ unit * greatest) :
    ((unit - 1) + quanta) / unit ≤ greatest := by
  refine Nat.le_of_lt_succ ((Nat.div_lt_iff_lt_mul unit_pos).2 ?_)
  have hpos := unit_pos
  rw [Nat.mul_comm, Nat.mul_succ]
  omega

/-- A finite float has whole parts, and they are in the range. -/
theorem whole_parts {x : Float} (h : isFinite x = true) :
    (∃ n, (ofFloat x).truncate? = some n ∧ n.natAbs ≤ greatest)
      ∧ (∃ n, (ofFloat x).floor? = some n ∧ n.natAbs ≤ greatest)
      ∧ ∃ n, (ofFloat x).ceiling? = some n ∧ n.natAbs ≤ greatest := by
  unfold isFinite at h
  cases hx : ofFloat x with
  | infinite negative => simp [hx] at h
  | nan => simp [hx] at h
  | finite negative quanta =>
      have hquanta := quanta_le hx
      have hbelow := div_unit_le hquanta
      have habove := ceil_unit_le hquanta
      have hcast : ∀ {n : Nat}, n ≤ greatest →
          (n : Int).natAbs ≤ greatest ∧ (-n : Int).natAbs ≤ greatest := by
        intro n hn
        rw [Int.natAbs_neg, Int.natAbs_natCast]
        exact ⟨hn, hn⟩
      -- The part toward zero is the quotient under either sign; the other one is the quotient
      -- rounded up.
      cases negative with
      | false =>
          exact ⟨⟨_, rfl, (hcast hbelow).1⟩, ⟨_, rfl, (hcast hbelow).1⟩, ⟨_, rfl, (hcast habove).1⟩⟩
      | true =>
          exact ⟨⟨_, rfl, (hcast hbelow).2⟩, ⟨_, rfl, (hcast habove).2⟩, ⟨_, rfl, (hcast hbelow).2⟩⟩

end Binary

end UnitCalc
