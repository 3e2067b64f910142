/-
Floats that are packed again.

The operations on floats unpack their operands, compute, and pack what they
get. Packing cuts mantissa and exponent to the bits there are for them, so
what is packed is read back only if it has the form of a float: `Packable`
lists the three forms, and `Packable.unpack_pack` goes through them. Unpacking
gives nothing else (`packable_unpack`), so operations that only touch the sign
keep the form.

# What the operations use

`Packable.ofFloat_pack` is the one fact about packing that the arithmetic
needs: the meaning of the packed result is the meaning of the unpacked one.
`ofFloat_neg`, `ofFloat_abs` and `ofFloat_withSignOf` follow at once;
`Proofs/Binary/Arithmetic` has the operations that round.
-/
import UnitCalc.Proofs.Binary.Rounded

namespace UnitCalc.Binary

open Float.Model Float.Model.UnpackedFloat

variable {negative : Bool} {quanta : Nat} {x : Float}

/-- The forms of unpacked finite floats: 53 binary digits, or fewer at the
least exponent. -/
inductive Packable : UnpackedFloat → Prop
  | zero (sign : Sign) : Packable (.zero sign)
  | subnormal (sign : Sign) {mantissa : Nat} (hpos : 0 < mantissa)
      (hlt : mantissa < Nat.pow 2 52) : Packable (.finite sign mantissa (-1074) hpos)
  | normal (sign : Sign) {mantissa : Nat} {exponent : Int} (hpos : 0 < mantissa)
      (hge : Nat.pow 2 52 ≤ mantissa) (hlt : mantissa < Nat.pow 2 53)
      (hleast : -1074 ≤ exponent) (hgreatest : exponent ≤ 971) :
      Packable (.finite sign mantissa exponent hpos)

/-- How the exponent of a float is stored. -/
theorem biased_exponent (exponent : Int) :
    (exponent + (Format.binary64.exponentBias : Nat) + (52 : Nat)).toNat
      = (exponent + 1075).toNat := by
  show (exponent + 1023 + 52).toNat = _
  omega

theorem unpack_pack_subnormal (sign : Sign) {mantissa : Nat} (hpos : 0 < mantissa)
    (hlt : mantissa < Nat.pow 2 52) :
    UnpackedFloat.unpack .binary64
        (UnpackedFloat.pack .binary64 (.finite sign mantissa (-1074) hpos))
      = .finite sign mantissa (-1074) hpos := by
  have hlog : mantissa.log2 < 52 := log2_lt_of_lt_twoPow (Nat.succ_pos _) hlt
  have hmantissa : (BitVec.ofNat 52 mantissa).toNat = mantissa := by
    rw [BitVec.toNat_ofNat]
    exact Nat.mod_eq_of_lt hlt
  -- The stored digits are not all zero, or this would be read as zero.
  have hsome : BitVec.ofNat 52 mantissa ≠ 0#52 := by
    intro hzero
    rw [hzero] at hmantissa
    exact Nat.ne_of_gt hpos hmantissa.symm
  rw [UnpackedFloat.pack]
  simp only [biased_exponent]
  rw [if_neg (by decide), if_neg (by show mantissa.log2 + 1 ≠ 53; omega), UnpackedFloat.unpack]
  simp only [unpackMantissa_packComponents, unpackExponent_packComponents,
    unpackSign_packComponents, Sign.ofBitVec_toBitVec]
  rw [if_neg (by decide), if_pos trivial, dif_neg hsome]
  congr

theorem unpack_pack_normal (sign : Sign) {mantissa : Nat} {exponent : Int} (hpos : 0 < mantissa)
    (hge : Nat.pow 2 52 ≤ mantissa) (hlt : mantissa < Nat.pow 2 53)
    (hleast : -1074 ≤ exponent) (hgreatest : exponent ≤ 971) :
    UnpackedFloat.unpack .binary64
        (UnpackedFloat.pack .binary64 (.finite sign mantissa exponent hpos))
      = .finite sign mantissa exponent hpos := by
  have hlog : mantissa.log2 = 52 := (Nat.log2_eq_iff (Nat.ne_of_gt hpos)).2 ⟨hge, hlt⟩
  have hexponent : (BitVec.ofNat 11 (exponent + 1075).toNat).toNat = (exponent + 1075).toNat := by
    rw [BitVec.toNat_ofNat]
    refine Nat.mod_eq_of_lt ?_
    show _ < 2048
    omega
  -- The stored exponent is neither of the two that are set apart.
  have hnotTop : BitVec.ofNat 11 (exponent + 1075).toNat ≠ -1#11 := by
    intro htop
    rw [htop] at hexponent
    have hvalue : (-1#11).toNat = 2047 := rfl
    omega
  have hnotBottom : BitVec.ofNat 11 (exponent + 1075).toNat ≠ 0#11 := by
    intro hbottom
    rw [hbottom] at hexponent
    have hvalue : (0#11).toNat = 0 := rfl
    omega
  -- The leading one is not stored but put back.
  have hmantissa : (1#1 ++ BitVec.ofNat 52 mantissa).toNat = mantissa := by
    rw [BitVec.toNat_append, ← Nat.shiftLeft_add_eq_or_of_lt (BitVec.isLt _), BitVec.toNat_ofNat]
    show 4503599627370496 + mantissa % 4503599627370496 = mantissa
    have h52 : Nat.pow 2 52 = 4503599627370496 := rfl
    have h53 : Nat.pow 2 53 = 9007199254740992 := rfl
    omega
  have hdigits : 52 + 1 = Format.binary64.mantissaBits := rfl
  rw [UnpackedFloat.pack]
  simp only [biased_exponent, hlog]
  rw [if_neg (by show ¬ 2048 ≤ _; omega), if_pos hdigits, UnpackedFloat.unpack]
  simp only [unpackMantissa_packComponents, unpackExponent_packComponents,
    unpackSign_packComponents, Sign.ofBitVec_toBitVec]
  rw [if_neg hnotTop, if_neg hnotBottom]
  congr
  rw [hexponent]
  show ((exponent + 1075).toNat : Int) - (1023 + 52) = exponent
  omega

/-- What has the form of a float is unpacked as it was packed. -/
theorem Packable.unpack_pack {u : UnpackedFloat} (h : Packable u) :
    UnpackedFloat.unpack .binary64 (UnpackedFloat.pack .binary64 u) = u := by
  cases h with
  | zero sign => exact unpack_packedZero
  | subnormal sign hpos hlt => exact unpack_pack_subnormal sign hpos hlt
  | normal sign hpos hge hlt hleast hgreatest =>
      exact unpack_pack_normal sign hpos hge hlt hleast hgreatest

/-- Bits of a finite number unpack to the form. -/
theorem packable_unpackBits {bits : BitVec Format.binary64.numBits}
    (h : ofUnpacked (UnpackedFloat.unpack .binary64 bits) = .finite negative quanta) :
    Packable (UnpackedFloat.unpack .binary64 bits) := by
  have hmantissa : (unpackMantissa bits).toNat < Nat.pow 2 52 := BitVec.isLt _
  have hexponent : (unpackExponent bits).toNat < 2048 := BitVec.isLt _
  unfold UnpackedFloat.unpack at h ⊢
  dsimp only at h ⊢
  -- The kinds of exponent are the forms: the top one is excluded by `h`.
  split
  · next htop =>
      rw [if_pos htop] at h
      split at h <;> cases h
  · next hnotTop =>
      split
      · next hbottom =>
          split
          · exact .zero _
          · rw [hbottom]
            exact .subnormal _ _ hmantissa
      · next hnotBottom =>
          have hlead : (1#1 ++ unpackMantissa bits).toNat
              = Nat.pow 2 52 + (unpackMantissa bits).toNat := by
            rw [BitVec.toNat_append, ← Nat.shiftLeft_add_eq_or_of_lt (BitVec.isLt _)]
            rfl
          have hlow : (unpackExponent bits).toNat ≠ 0 := by
            intro hzero
            exact hnotBottom (BitVec.eq_of_toNat_eq hzero)
          have hhigh : (unpackExponent bits).toNat ≠ 2047 := by
            intro htop
            exact hnotTop (BitVec.eq_of_toNat_eq htop)
          have h53 : Nat.pow 2 53 = Nat.pow 2 52 + Nat.pow 2 52 := rfl
          refine .normal _ _ ?_ ?_ ?_ ?_
          · omega
          · omega
          · show -1074 ≤ ((unpackExponent bits).toNat : Int) - (1023 + 52)
            omega
          · show ((unpackExponent bits).toNat : Int) - (1023 + 52) ≤ 971
            omega

/-- Finite floats have the form. -/
theorem packable_unpack (h : ofFloat x = .finite negative quanta) : Packable x.toModel.unpack := by
  rw [ofFloat_eq] at h
  exact packable_unpackBits h

/-- What has the form keeps its meaning when it is packed. -/
theorem Packable.ofFloat_pack {u : UnpackedFloat} (h : Packable u) :
    ofFloat (.ofModel (Float.Model.pack u)) = ofUnpacked u := by
  rw [ofFloat_eq]
  exact congrArg ofUnpacked h.unpack_pack

-- ==================================================================== signs

theorem Packable.neg {u : UnpackedFloat} (h : Packable u) : Packable u.neg := by
  cases h with
  | zero sign => exact .zero _
  | subnormal sign hpos hlt => exact .subnormal _ hpos hlt
  | normal sign hpos hge hlt hleast hgreatest => exact .normal _ hpos hge hlt hleast hgreatest

theorem Packable.abs {u : UnpackedFloat} (h : Packable u) : Packable u.abs := by
  cases h with
  | zero sign => exact .zero _
  | subnormal sign hpos hlt => exact .subnormal _ hpos hlt
  | normal sign hpos hge hlt hleast hgreatest => exact .normal _ hpos hge hlt hleast hgreatest

theorem ofFloat_neg (h : ofFloat x = .finite negative quanta) :
    ofFloat (-x) = .finite (!negative) quanta := by
  have hpacked : ofFloat (-x) = ofUnpacked x.toModel.unpack.neg :=
    (packable_unpack h).neg.ofFloat_pack
  rw [hpacked]
  rw [ofFloat_eq] at h
  generalize x.toModel.unpack = u at *
  cases u with
  | infinity sign => cases h
  | notANumber => cases h
  | zero sign => cases sign <;> cases h <;> rfl
  | finite sign mantissa exponent hpos => cases sign <;> cases h <;> rfl

theorem ofFloat_abs (h : ofFloat x = .finite negative quanta) :
    ofFloat x.abs = .finite false quanta := by
  have hpacked : ofFloat x.abs = ofUnpacked x.toModel.unpack.abs :=
    (packable_unpack h).abs.ofFloat_pack
  rw [hpacked]
  rw [ofFloat_eq] at h
  generalize x.toModel.unpack = u at *
  cases u with
  | infinity sign => cases h
  | notANumber => cases h
  | zero sign => cases sign <;> cases h <;> rfl
  | finite sign mantissa exponent hpos => cases sign <;> cases h <;> rfl

/-- The magnitude of one number under the sign of another. -/
theorem ofFloat_withSignOf {sign : Float} {negative' : Bool} {quanta' : Nat}
    (h : ofFloat x = .finite negative quanta) (hsign : ofFloat sign = .finite negative' quanta') :
    ofFloat (withSignOf x sign) = .finite negative' quanta := by
  have habs := ofFloat_abs h
  unfold withSignOf
  rw [hsign]
  cases negative' with
  | false => exact habs
  | true => exact ofFloat_neg habs

end UnitCalc.Binary
