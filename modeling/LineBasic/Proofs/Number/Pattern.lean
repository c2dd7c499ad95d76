import Mathlib
import LineBasic.Number.Decimal

/-! What a pattern of bits stands for. The number that `Binary.ofBits?` reads off a pattern is the one that
the pattern unpacks to, and its significand and exponent are those of a binary64 number. -/

namespace LineBasic.Number

open Float.Model Float.Model.UnpackedFloat

/-! ### The fields of a pattern -/

section

variable {bits : BitVec Format.binary64.numBits}

theorem toNat_unpackMantissa : (unpackMantissa bits).toNat = bits.toNat % 2 ^ 52 := by
  rw [unpackMantissa_def, BitVec.extractLsb'_toNat, Nat.shiftRight_zero]

theorem toNat_unpackExponent : (unpackExponent bits).toNat = bits.toNat / 2 ^ 52 % 2 ^ 11 := by
  rw [unpackExponent_def, BitVec.extractLsb'_toNat, Nat.shiftRight_eq_div_pow]

theorem unpackSign_eq_zero_iff : unpackSign bits = 0#1 ↔ bits.toNat < 2 ^ 63 := by
  have hbits : bits.toNat < 2 ^ 64 := bits.isLt
  rw [← BitVec.toNat_inj, unpackSign_def, BitVec.extractLsb'_toNat, Nat.shiftRight_eq_div_pow]
  change bits.toNat / 2 ^ 63 % 2 = 0 ↔ _
  omega

theorem unpackExponent_ne_ones (h : (unpackExponent bits).toNat ≠ 2047) : unpackExponent bits ≠ -1#11 :=
  fun hx => h (congrArg BitVec.toNat hx)

theorem exponentBias_eq : Format.binary64.exponentBias = 1023 := by decide

theorem toNat_one_append (m : BitVec 52) : (1#1 ++ m).toNat = 2 ^ 52 + m.toNat := by
  rw [BitVec.toNat_append, ← Nat.shiftLeft_add_eq_or_of_lt m.isLt]
  rfl

theorem isFinite_unpack_of_ones (h : (unpackExponent bits).toNat = 2047) :
    (UnpackedFloat.unpack Format.binary64 bits).isFinite = false := by
  have hx : unpackExponent bits = -1#11 := BitVec.eq_of_toNat_eq h
  unfold UnpackedFloat.unpack
  dsimp only
  rw [if_pos hx]
  split <;> rfl

theorem unpack_of_zeros (h : (unpackExponent bits).toNat = 0) (hm : (unpackMantissa bits).toNat = 0) :
    UnpackedFloat.unpack Format.binary64 bits = .zero (Sign.ofBitVec (unpackSign bits)) := by
  have hx : unpackExponent bits = 0#11 := BitVec.eq_of_toNat_eq h
  unfold UnpackedFloat.unpack
  dsimp only
  rw [if_neg (unpackExponent_ne_ones (by omega)), if_pos hx,
    dif_pos (BitVec.eq_of_toNat_eq hm)]

/-- Below the smallest normal number the exponent stays and the significand has no leading one. -/
theorem unpack_of_subnormal (h : (unpackExponent bits).toNat = 0)
    (hm : 0 < (unpackMantissa bits).toNat) : UnpackedFloat.unpack Format.binary64 bits =
      .finite (Sign.ofBitVec (unpackSign bits)) (unpackMantissa bits).toNat (-1074) hm := by
  have hx : unpackExponent bits = 0#11 := BitVec.eq_of_toNat_eq h
  have hm' : unpackMantissa bits ≠ 0#52 := by
    intro hzero
    rw [hzero] at hm
    cases hm
  unfold UnpackedFloat.unpack
  dsimp only
  rw [if_neg (unpackExponent_ne_ones (by omega)), if_pos hx, dif_neg hm']
  simp only [UnpackedFloat.finite.injEq, h, exponentBias_eq]
  norm_num

theorem unpack_of_normal (h₀ : (unpackExponent bits).toNat ≠ 0)
    (h : (unpackExponent bits).toNat ≠ 2047) : UnpackedFloat.unpack Format.binary64 bits =
      .finite (Sign.ofBitVec (unpackSign bits)) (2 ^ 52 + (unpackMantissa bits).toNat)
        ((unpackExponent bits).toNat - 1075) (by omega) := by
  have hx : unpackExponent bits ≠ 0#11 := fun hx => h₀ (congrArg BitVec.toNat hx)
  unfold UnpackedFloat.unpack
  dsimp only
  rw [if_neg (unpackExponent_ne_ones h), if_neg hx]
  simp only [UnpackedFloat.finite.injEq, toNat_one_append, exponentBias_eq]
  norm_num

end

/-! ### The number of a pattern -/

/-- The sign of a number. -/
def Binary.sign (b : Binary) : Sign := if b.negative then .negative else .positive

/-- A number as its unpacked form. -/
def Binary.unpacked (b : Binary) : UnpackedFloat :=
  if h : b.significand = 0 then .zero b.sign
  else .finite b.sign b.significand b.exponent (Nat.pos_of_ne_zero h)

theorem sign_ofBitVec (bits : UInt64) :
    Sign.ofBitVec (@unpackSign Format.binary64 bits.toBitVec) =
      if signBit bits then Sign.negative else Sign.positive := by
  have hiff := @unpackSign_eq_zero_iff bits.toBitVec
  unfold Sign.ofBitVec signBit
  by_cases h : bits.toNat < 2 ^ 63
  · rw [if_pos (hiff.mpr h), if_neg (by simpa using h)]
  · rw [if_neg (fun h₀ => h (hiff.mp h₀)), if_pos (by simpa using h)]

theorem Binary.isFinite_unpack_of_none {a : Float.Model} (h : ofBits? a.toBits = none) :
    a.unpack.isFinite = false := by
  apply isFinite_unpack_of_ones
  rw [toNat_unpackExponent]
  unfold ofBits? at h
  simpa using h

theorem Binary.unpack_of_some {a : Float.Model} {b : Binary} (h : ofBits? a.toBits = some b) :
    a.unpack = b.unpacked := by
  have hfraction : (@unpackMantissa Format.binary64 a.toBits.toBitVec).toNat = a.toBits.toNat % 2 ^ 52 :=
    toNat_unpackMantissa
  have hbiased : (@unpackExponent Format.binary64 a.toBits.toBitVec).toNat =
    a.toBits.toNat / 2 ^ 52 % 2 ^ 11 := toNat_unpackExponent
  have hsign := sign_ofBitVec a.toBits
  unfold ofBits? at h
  simp only [Nat.pow_eq, ← hfraction, ← hbiased] at h
  split at h
  · cases h
  · rename_i hones
    rw [beq_iff_eq] at hones
    cases h
    change UnpackedFloat.unpack Format.binary64 a.toBits.toBitVec = _
    rcases Nat.eq_zero_or_pos (@unpackExponent Format.binary64 a.toBits.toBitVec).toNat with hx | hx
    · rcases Nat.eq_zero_or_pos (@unpackMantissa Format.binary64 a.toBits.toBitVec).toNat with hm | hm
      · rw [unpack_of_zeros hx hm, hsign, unpacked, dif_pos (by simp [hm, hx]), sign]
      · rw [unpack_of_subnormal hx hm, hsign, unpacked, dif_neg (by simp [hm.ne', hx])]
        simp [sign, hx]
    · rw [unpack_of_normal hx.ne' hones, hsign, unpacked, dif_neg (by simp [hx.ne'])]
      simp only [UnpackedFloat.finite.injEq]
      refine ⟨rfl, by simp [hx.ne'], by omega⟩

theorem Binary.bounds {bits : UInt64} {b : Binary} (h : ofBits? bits = some b) :
    b.significand < 2 ^ 53 ∧ b.exponent ≤ 971 := by
  unfold ofBits? at h
  simp only [Nat.pow_eq] at h
  split at h
  · cases h
  · rename_i hones
    cases h
    dsimp only
    have hlt := Nat.mod_lt bits.toNat (Nat.two_pow_pos 52)
    have hbiased := Nat.mod_lt (bits.toNat / 2 ^ 52) (Nat.two_pow_pos 11)
    rw [beq_iff_eq] at hones
    constructor
    · split <;> omega
    · omega

end LineBasic.Number
