/-
The meaning of a float, by the model of the operations.

The operations on floats are defined on an unpacked form: a sign, a mantissa
and an exponent. `Binary.ofFloat` reads the bits itself. Both take the same
three fields out of the bits (`ofBits_toNat`), so the two readings are one
(`ofFloat_eq`), and whatever the unpacked form decides by cases is decided on
meanings.

The proof goes through the three kinds of exponent: all ones stand for the
infinities and for what is no number, zero for the subnormal numbers and the
two zeros, and the rest have a leading one in front of the stored digits.

# What is needed of comparisons

A division asks whether the divisor equals zero, so `beq_zero_iff` says that
of meanings: the magnitude is nothing, under either sign. `beq_zero_of_pos` is
what the operators need that divide by a positive number.

`Proofs/Binary/Packed` goes the other way, from the unpacked form to the bits.
-/
import UnitCalc.Binary.Round

namespace UnitCalc.Binary

open Float.Model

/-- The meaning of an unpacked float. -/
def ofUnpacked : UnpackedFloat → Binary
  | .infinity sign => .infinite (sign == .negative)
  | .notANumber => .nan
  | .zero sign => .finite (sign == .negative) 0
  | .finite sign mantissa exponent _ =>
    .finite (sign == .negative) (Nat.pow 2 (exponent + 1074).toNat * mantissa)

-- ============================================================== the fields

section

variable (bits : BitVec Format.binary64.numBits)

theorem toNat_unpackMantissa :
    (UnpackedFloat.unpackMantissa bits).toNat = bits.toNat % Nat.pow 2 52 := by
  simp [UnpackedFloat.unpackMantissa, BitVec.extractLsb, BitVec.extractLsb'_toNat]

theorem toNat_unpackExponent :
    (UnpackedFloat.unpackExponent bits).toNat = bits.toNat / Nat.pow 2 52 % Nat.pow 2 11 := by
  simp [UnpackedFloat.unpackExponent, BitVec.extractLsb, BitVec.extractLsb'_toNat,
    Nat.shiftRight_eq_div_pow]

theorem negative_unpackSign :
    (UnpackedFloat.Sign.ofBitVec (UnpackedFloat.unpackSign bits) == .negative)
      = (bits.toNat / Nat.pow 2 63 % 2 == 1) := by
  have hsign : (UnpackedFloat.unpackSign bits).toNat = bits.toNat / Nat.pow 2 63 % 2 := by
    show bits.toNat >>> 63 % 2 = _
    rw [Nat.shiftRight_eq_div_pow]
  have hall : ∀ b : BitVec 1, (UnpackedFloat.Sign.ofBitVec b == .negative) = (b.toNat == 1) := by
    decide
  rw [hall, hsign]

/-- The bits are read as the model unpacks them. -/
theorem ofBits_toNat : ofBits bits.toNat = ofUnpacked (UnpackedFloat.unpack .binary64 bits) := by
  have hmantissa := toNat_unpackMantissa bits
  have hexponent := toNat_unpackExponent bits
  have hsign := negative_unpackSign bits
  have hallOnes : UnpackedFloat.unpackExponent bits = -1#_
      ↔ bits.toNat / Nat.pow 2 52 % Nat.pow 2 11 = 2047 := by
    rw [← hexponent, ← BitVec.toNat_inj]
    rfl
  have hzero : UnpackedFloat.unpackExponent bits = 0#_
      ↔ bits.toNat / Nat.pow 2 52 % Nat.pow 2 11 = 0 := by
    rw [← hexponent, ← BitVec.toNat_inj]
    rfl
  have hnone : UnpackedFloat.unpackMantissa bits = 0#_ ↔ bits.toNat % Nat.pow 2 52 = 0 := by
    rw [← hmantissa, ← BitVec.toNat_inj]
    rfl
  unfold UnpackedFloat.unpack ofBits
  dsimp only
  rw [← hsign]
  -- All ones: the infinities and what is no number.
  by_cases htop : bits.toNat / Nat.pow 2 52 % Nat.pow 2 11 = 2047
  · rw [if_pos htop, if_pos (hallOnes.2 htop)]
    by_cases hm : bits.toNat % Nat.pow 2 52 = 0
    · rw [if_pos hm, if_pos (hnone.2 hm)]
      rfl
    · rw [if_neg hm, if_neg (mt hnone.1 hm)]
      rfl
  · rw [if_neg htop, if_neg (mt hallOnes.1 htop)]
    -- A zero exponent: the magnitude is the stored digits alone.
    by_cases hbottom : bits.toNat / Nat.pow 2 52 % Nat.pow 2 11 = 0
    · rw [if_pos hbottom, if_pos (hzero.2 hbottom)]
      by_cases hm : bits.toNat % Nat.pow 2 52 = 0
      · rw [dif_pos (hnone.2 hm), hm]
        rfl
      · rw [dif_neg (mt hnone.1 hm)]
        show Binary.finite _ _ = Binary.finite _
          (Nat.pow 2
              (Int.toNat ((UnpackedFloat.unpackExponent bits).toNat - (1023 + 52) + 1 + 1074))
            * (UnpackedFloat.unpackMantissa bits).toNat)
        rw [hexponent, hmantissa, hbottom]
        show Binary.finite _ _ = Binary.finite _ (1 * _)
        rw [Nat.one_mul]
    · rw [if_neg hbottom, if_neg (mt hzero.1 hbottom)]
      -- Any other: a leading one stands in front of the stored digits.
      have hlead : (1#1 ++ UnpackedFloat.unpackMantissa bits).toNat
          = Nat.pow 2 52 + bits.toNat % Nat.pow 2 52 := by
        rw [BitVec.toNat_append, ← Nat.shiftLeft_add_eq_or_of_lt (BitVec.isLt _), hmantissa]
        rfl
      have hquanta :
          Int.toNat ((bits.toNat / Nat.pow 2 52 % Nat.pow 2 11 : Nat) - (1023 + 52) + 1074)
            = bits.toNat / Nat.pow 2 52 % Nat.pow 2 11 - 1 := by
        omega
      show Binary.finite _ _ = Binary.finite _
        (Nat.pow 2 (Int.toNat ((UnpackedFloat.unpackExponent bits).toNat - (1023 + 52) + 1074))
          * (1#1 ++ UnpackedFloat.unpackMantissa bits).toNat)
      rw [hexponent, hlead, hquanta]

end

/-- A float means what its unpacked model means. -/
theorem ofFloat_eq (x : Float) : ofFloat x = ofUnpacked x.toModel.unpack :=
  ofBits_toNat x.toModel.toBits.toBitVec

-- ============================================================= comparisons

theorem unpack_zero : (0.0 : Float).toModel.unpack = .zero .positive := by
  rfl

theorem compare_zero_iff {u : UnpackedFloat} :
    (u.compare (.zero .positive) == some .eq) = true ↔ ∃ sign, u = .zero sign := by
  constructor
  · -- A magnitude that is not nothing is greater than zero or less, as its sign says.
    intro h
    cases u with
    | infinity sign => cases sign <;> exact absurd h Bool.false_ne_true
    | notANumber => exact absurd h Bool.false_ne_true
    | zero sign => exact ⟨sign, rfl⟩
    | finite sign mantissa exponent hpos => cases sign <;> exact absurd h Bool.false_ne_true
  · rintro ⟨sign, rfl⟩
    rfl

theorem ofUnpacked_zero_iff {u : UnpackedFloat} :
    (∃ negative, ofUnpacked u = .finite negative 0) ↔ ∃ sign, u = .zero sign := by
  constructor
  · rintro ⟨negative, h⟩
    cases u with
    | infinity sign => cases h
    | notANumber => cases h
    | zero sign => exact ⟨sign, rfl⟩
    | finite sign mantissa exponent hpos =>
        injection h with _ hquanta
        exact absurd hquanta
          (Nat.mul_ne_zero (Nat.ne_of_gt (Nat.two_pow_pos _)) (Nat.ne_of_gt hpos))
  · rintro ⟨sign, rfl⟩
    exact ⟨_, rfl⟩

/-- A float equals zero if its magnitude is nothing. -/
theorem beq_zero_iff {x : Float} :
    (x == 0.0) = true ↔ ∃ negative, ofFloat x = .finite negative 0 := by
  have hbeq : (x == 0.0) = (x.toModel.unpack.compare (0.0 : Float).toModel.unpack == some .eq) :=
    rfl
  rw [hbeq, ofFloat_eq, unpack_zero, compare_zero_iff, ofUnpacked_zero_iff]

/-- A positive float does not equal zero. -/
theorem beq_zero_of_pos {x : Float} (h : 0.0 < x) : (x == 0.0) = false := by
  have hlt : ((0.0 : Float).toModel.unpack.compare x.toModel.unpack == some .lt) = true :=
    of_decide_eq_true h
  rw [unpack_zero] at hlt
  cases hbeq : x == 0.0 with
  | false => rfl
  | true =>
      rw [beq_zero_iff, ofFloat_eq, ofUnpacked_zero_iff] at hbeq
      obtain ⟨sign, hzero⟩ := hbeq
      rw [hzero] at hlt
      exact absurd hlt Bool.false_ne_true

end UnitCalc.Binary
