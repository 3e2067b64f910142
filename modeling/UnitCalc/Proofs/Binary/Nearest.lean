/-
The float nearest to a ratio.

It depends on the ratio alone and not on how that is written
(`nearestBits_congr`), and it has its ends: ratios past the end of the range
go to infinity and those below half of the least float to nothing
(`nearestBits_of_large`, `nearestBits_of_small`).

# Going back

The bits of a finite magnitude stand for a number of quanta (`bitsQuanta`),
and the float nearest to that number is the magnitude itself
(`nearestBits_bitsQuanta`): subnormal magnitudes are not shifted at all, and
the leading digit of the others is the 53rd, so what rounding cuts off are
zeros. Every float is a magnitude under a sign (`signedBits_parts`). Hence a
finite float is the nearest one to its own quanta (`eq_nearestQuanta`), and
two numbers that come to the same quanta are the same float, whatever their
texts. That is how it is shown that a number written out is read as itself.

`ofFloat_ofBits` says that bits are kept when a float is made of them, unless
they are bits of no number, which all become the same.
-/
import Mathlib
import UnitCalc.Proofs.Binary.Range

namespace UnitCalc

-- ================================================================= rounding

theorem roundDiv_mul (tie : Tie) {k : Nat} (hk : 0 < k) (n d : Nat) :
    roundDiv tie (k * n) (k * d) = roundDiv tie n d := by
  have hbelow : 2 * (k * (n % d)) < k * d ↔ 2 * (n % d) < d := by
    rw [Nat.mul_left_comm, Nat.mul_lt_mul_left hk]
  have habove : k * d < 2 * (k * (n % d)) ↔ d < 2 * (n % d) := by
    rw [Nat.mul_left_comm, Nat.mul_lt_mul_left hk]
  unfold roundDiv
  simp only [Nat.mul_div_mul_left n d hk, Nat.mul_mod_mul_left, hbelow, habove]

/-- A whole number is the nearest to itself. -/
theorem roundDiv_of_dvd (tie : Tie) (n : Nat) {d : Nat} (hd : 0 < d) :
    roundDiv tie (d * n) d = n := by
  unfold roundDiv
  simp only [Nat.mul_mod_right, Nat.mul_zero, hd, ↓reduceIte, Nat.mul_div_cancel_left n hd]

/-- A number of 53 binary digits with zeros behind them. -/
theorem log2_scaled (zeros : Nat) {n : Nat} (hlow : Nat.pow 2 52 ≤ n) (hhigh : n < Nat.pow 2 53) :
    Nat.log2 (Nat.pow 2 zeros * n) = zeros + 52 := by
  have hpos : 0 < n := Nat.lt_of_lt_of_le (twoPow_pos 52) hlow
  rw [Nat.log2_eq_iff (Nat.ne_of_gt (Nat.mul_pos (twoPow_pos zeros) hpos))]
  constructor
  · show Nat.pow 2 (zeros + 52) ≤ _
    rw [twoPow_add]
    exact Nat.mul_le_mul_left _ hlow
  · show _ < Nat.pow 2 (zeros + 53)
    rw [twoPow_add]
    exact Nat.mul_lt_mul_of_pos_left hhigh (twoPow_pos zeros)

namespace Binary

open Float.Model

variable {negative : Bool} {n d quanta bits : Nat} {x : Float}

theorem nearestBits_mul (tie : Tie) {k : Nat} (hk : 0 < k) (n d : Nat) :
    nearestBits tie (k * n) (k * d) = nearestBits tie n d := by
  unfold nearestBits
  dsimp only
  rw [Nat.mul_div_mul_left n d hk, Nat.mul_left_comm, roundDiv_mul tie hk]

/-- The bits depend on the ratio alone. -/
theorem nearestBits_congr (tie : Tie) {n d n' d' : Nat} (hd : 0 < d) (hd' : 0 < d')
    (h : n * d' = n' * d) : nearestBits tie n d = nearestBits tie n' d' :=
  calc nearestBits tie n d
    _ = nearestBits tie (d' * n) (d' * d) := (nearestBits_mul tie hd' n d).symm
    _ = nearestBits tie (d * n') (d * d') := by
      rw [Nat.mul_comm d' n, h, Nat.mul_comm n' d, Nat.mul_comm d' d]
    _ = nearestBits tie n' d' := nearestBits_mul tie hd n' d'

/-- A ratio past the end of the range goes to the end. -/
theorem nearestBits_of_large (tie : Tie) (h : 2099 ≤ Nat.log2 (n / d)) :
    nearestBits tie n d = infinityBits := by
  unfold nearestBits
  refine Nat.min_eq_left (Nat.le_trans ?_ (Nat.le_add_right _ _))
  unfold infinityBits
  rw [Nat.mul_comm]
  refine Nat.mul_le_mul_left _ ?_
  omega

/-- A ratio of less than half a quantum is nothing. -/
theorem nearestBits_of_small (tie : Tie) (h : 2 * n < d) : nearestBits tie n d = 0 := by
  have hlt : n < d := by omega
  have hzero : Nat.log2 0 - 52 = 0 := rfl
  unfold nearestBits
  dsimp only
  rw [Nat.div_eq_of_lt hlt, hzero, Nat.mul_zero, Nat.zero_add, Nat.one_mul]
  unfold roundDiv
  rw [Nat.mod_eq_of_lt hlt, Nat.div_eq_of_lt hlt]
  simp only [h, ↓reduceIte, Nat.min_zero]

-- ======================================================= finite magnitudes

/-- The quanta that the bits of a finite magnitude stand for. -/
def bitsQuanta (bits : Nat) : Nat :=
  if bits / Nat.pow 2 52 = 0 then bits
  else Nat.pow 2 (bits / Nat.pow 2 52 - 1) * (Nat.pow 2 52 + bits % Nat.pow 2 52)

/-- The fields of a magnitude with a sign. -/
theorem fields_signedBits (negative : Bool) (h : bits < Nat.pow 2 63) :
    (signedBits negative bits / Nat.pow 2 63 % 2 == 1) = negative
      ∧ signedBits negative bits / Nat.pow 2 52 % Nat.pow 2 11 = bits / Nat.pow 2 52
      ∧ signedBits negative bits % Nat.pow 2 52 = bits % Nat.pow 2 52 := by
  have h63 : Nat.pow 2 63 = 9223372036854775808 := rfl
  have h52 : Nat.pow 2 52 = 4503599627370496 := rfl
  have h11 : Nat.pow 2 11 = 2048 := rfl
  rw [h63] at h
  unfold signedBits
  rw [h63, h52, h11]
  -- The sign is worth `2 ^ 63`, a multiple of what the two other fields count.
  cases negative with
  | false =>
      refine ⟨?_, ?_, rfl⟩
      · rw [beq_eq_false_iff_ne]
        simp only [Bool.false_eq_true, ↓reduceIte]
        omega
      · simp only [Bool.false_eq_true, ↓reduceIte]
        omega
  | true =>
      simp only [↓reduceIte]
      refine ⟨?_, ?_, ?_⟩
      · rw [beq_iff_eq]
        omega
      · omega
      · omega

/-- Bits below those of infinity mean their quanta. -/
theorem ofBits_signedBits (negative : Bool) (h : bits < infinityBits) :
    ofBits (signedBits negative bits) = .finite negative (bitsQuanta bits) := by
  have hlt : bits < Nat.pow 2 63 := Nat.lt_trans h (by decide)
  have hexponent : bits / Nat.pow 2 52 < 2047 :=
    (Nat.div_lt_iff_lt_mul (twoPow_pos 52)).2 h
  obtain ⟨hsign, hfield, hfraction⟩ := fields_signedBits negative hlt
  unfold ofBits bitsQuanta
  dsimp only
  rw [hsign, hfield, hfraction, if_neg (Nat.ne_of_lt hexponent)]
  split
  · next hzero =>
      rw [Nat.mod_eq_of_lt ((Nat.div_eq_zero_iff_lt (twoPow_pos 52)).1 hzero)]
  · rfl

/-- Quanta of a finite magnitude are rounded to it. -/
theorem nearestBits_bitsQuanta (tie : Tie) (h : bits < infinityBits) :
    nearestBits tie (bitsQuanta bits) 1 = bits := by
  have hparts : Nat.pow 2 52 * (bits / Nat.pow 2 52) + bits % Nat.pow 2 52 = bits :=
    Nat.div_add_mod bits (Nat.pow 2 52)
  have hfraction : bits % Nat.pow 2 52 < Nat.pow 2 52 := Nat.mod_lt bits (twoPow_pos 52)
  have hfull : Nat.pow 2 53 = Nat.pow 2 52 + Nat.pow 2 52 := rfl
  unfold nearestBits bitsQuanta
  dsimp only
  rw [Nat.div_one, Nat.mul_one]
  split
  · next hzero =>
      -- Subnormal: there are no more than 53 digits, so nothing is cut off.
      have hlog : Nat.log2 bits - 52 = 0 := by
        have hlt : bits < Nat.pow 2 53 := by
          rw [Nat.div_eq_zero_iff_lt (twoPow_pos 52)] at hzero
          exact Nat.lt_trans hzero (by decide)
        have hlog := log2_lt_of_lt_twoPow (Nat.succ_pos _) hlt
        omega
      rw [hlog, Nat.mul_zero, Nat.zero_add]
      have hround : roundDiv tie bits (Nat.pow 2 0) = bits := by
        have hone := roundDiv_of_dvd tie bits (twoPow_pos 0)
        rwa [show Nat.pow 2 0 * bits = bits from Nat.one_mul bits] at hone
      rw [hround]
      exact Nat.min_eq_right (Nat.le_of_lt h)
  · next hnormal =>
      -- The leading digit of a normal magnitude is its 53rd.
      have hlog : Nat.log2
            (Nat.pow 2 (bits / Nat.pow 2 52 - 1) * (Nat.pow 2 52 + bits % Nat.pow 2 52)) - 52
          = bits / Nat.pow 2 52 - 1 := by
        rw [log2_scaled _ (Nat.le_add_right _ _) (by rw [hfull]; omega), Nat.add_sub_cancel]
      rw [hlog, roundDiv_of_dvd tie _ (twoPow_pos _)]
      have hwhole : Nat.pow 2 52 * (bits / Nat.pow 2 52 - 1)
            + (Nat.pow 2 52 + bits % Nat.pow 2 52) = bits := by
        obtain ⟨e, he⟩ := Nat.exists_eq_succ_of_ne_zero hnormal
        rw [he] at hparts ⊢
        rw [Nat.mul_succ] at hparts
        rw [Nat.succ_sub_one, ← Nat.add_assoc]
        exact hparts
      rw [hwhole]
      exact Nat.min_eq_right (Nat.le_of_lt h)

-- ================================================================== floats

/-- Every number of 64 bits is a magnitude with a sign. -/
theorem signedBits_parts (h : bits < Nat.pow 2 64) :
    signedBits (bits / Nat.pow 2 63 % 2 == 1) (bits % Nat.pow 2 63) = bits := by
  have h64 : Nat.pow 2 64 = 18446744073709551616 := rfl
  have h63 : Nat.pow 2 63 = 9223372036854775808 := rfl
  rw [h64] at h
  unfold signedBits
  rw [h63]
  split
  · next hsign =>
      rw [beq_iff_eq] at hsign
      omega
  · next hsign =>
      rw [beq_iff_eq] at hsign
      omega

/-- Only bits below those of infinity mean a finite number. -/
theorem lt_infinityBits {sign : Bool}
    (h : ofBits (signedBits sign bits) = .finite negative quanta) (hbits : bits < Nat.pow 2 63) :
    bits < infinityBits := by
  obtain ⟨-, hfield, -⟩ := fields_signedBits sign hbits
  have hexponent : bits / Nat.pow 2 52 ≠ 2047 := by
    intro htop
    unfold ofBits at h
    dsimp only at h
    rw [hfield, if_pos htop] at h
    split at h <;> cases h
  have h63 : Nat.pow 2 63 = 2048 * Nat.pow 2 52 := rfl
  rw [h63] at hbits
  have hlt : bits / Nat.pow 2 52 < 2048 := (Nat.div_lt_iff_lt_mul (twoPow_pos 52)).2 hbits
  unfold infinityBits
  exact (Nat.div_lt_iff_lt_mul (twoPow_pos 52)).1 (by omega)

/-- The float of the quanta of a finite float is that float. -/
theorem eq_nearestQuanta (tie : Tie) (h : ofFloat x = .finite negative quanta) :
    x = nearestQuanta tie negative quanta 1 := by
  have hparts := signedBits_parts x.toBits.toNat_lt
  have hbits : x.toBits.toNat % Nat.pow 2 63 < Nat.pow 2 63 := Nat.mod_lt _ (twoPow_pos 63)
  have hlt : x.toBits.toNat % Nat.pow 2 63 < infinityBits := by
    unfold ofFloat at h
    rw [← hparts] at h
    exact lt_infinityBits h hbits
  unfold ofFloat at h
  rw [← hparts, ofBits_signedBits _ hlt] at h
  obtain ⟨rfl, rfl⟩ := Binary.finite.inj h
  unfold nearestQuanta
  rw [nearestBits_bitsQuanta tie hlt, hparts, UInt64.ofNat_toNat, Float.ofBits_toBits]

/-- The bits of a float are kept, unless they are those of no number. -/
theorem ofFloat_ofBits {u : UInt64} (h : ofBits u.toNat ≠ .nan) :
    ofFloat (Float.ofBits u) = ofBits u.toNat := by
  -- Packing undoes unpacking, except for the bits of no number.
  have hpacked : UnpackedFloat.pack .binary64 (UnpackedFloat.unpack .binary64 u.toBitVec)
      = u.toBitVec := by
    refine (UnpackedFloat.pack_unpack _).trans (if_neg fun hnan => h ?_)
    refine (ofBits_toNat u.toBitVec).trans ?_
    unfold UnpackedFloat.isNaNBits at hnan
    obtain ⟨hexponent, hmantissa⟩ := of_decide_eq_true hnan
    unfold UnpackedFloat.unpack
    simp only [hexponent, hmantissa, ↓reduceIte]
    rfl
  show ofBits (UnpackedFloat.pack .binary64 (UnpackedFloat.unpack .binary64 u.toBitVec)).toNat = _
  rw [hpacked]
  rfl

theorem ofBits_infinityBits (negative : Bool) :
    ofBits (signedBits negative infinityBits) = .infinite negative := by
  cases negative <;> decide

theorem toNat_signedBits (negative : Bool) (h : bits ≤ infinityBits) :
    (UInt64.ofNat (signedBits negative bits)).toNat = signedBits negative bits := by
  have h63 : Nat.pow 2 63 = 9223372036854775808 := rfl
  have hinfinite : infinityBits = 9218868437227405312 := rfl
  refine UInt64.toNat_ofNat_of_lt ?_
  show signedBits negative bits < 18446744073709551616
  rw [hinfinite] at h
  unfold signedBits
  rw [h63]
  split <;> omega

/-- A ratio that comes to the float of some quanta comes to it with either
sign. -/
theorem nearestQuanta_sign {tie : Tie} {negative' : Bool}
    (h : ofFloat (nearestQuanta tie negative n d) = .finite negative' quanta) (sign : Bool) :
    nearestQuanta tie sign n d = nearestQuanta tie sign quanta 1 := by
  have hle : nearestBits tie n d ≤ infinityBits := by
    unfold nearestBits
    exact Nat.min_le_left _ _
  unfold nearestQuanta at h ⊢
  generalize nearestBits tie n d = bits at *
  have hread := toNat_signedBits negative hle
  -- Bits of infinity have no quanta, so they are not the case here.
  rcases Nat.lt_or_eq_of_le hle with hlt | rfl
  · have hmeaning := ofBits_signedBits negative hlt
    rw [ofFloat_ofBits (by rw [hread, hmeaning]; exact Binary.noConfusion), hread, hmeaning] at h
    obtain ⟨-, rfl⟩ := Binary.finite.inj h
    rw [nearestBits_bitsQuanta tie hlt]
  · have hmeaning := ofBits_infinityBits negative
    rw [ofFloat_ofBits (by rw [hread, hmeaning]; exact Binary.noConfusion), hread, hmeaning] at h
    cases h

end Binary

end UnitCalc
