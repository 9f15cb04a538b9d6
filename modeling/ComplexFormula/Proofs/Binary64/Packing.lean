import ComplexFormula.Binary64
import Mathlib

/-!
The words of floats. A word is told apart by its fields, and the fields are those of the exact value
that is read off its bits. Canonical numbers, whose significand is as long as it can be, are found
again in the words into which they are packed, and nothing but NaN is packed into NaN.
-/

namespace ComplexFormula.Binary64

open Float.Model (Format UnpackedFloat)
open Float.Model.UnpackedFloat

/-- Whether a sign is that of the numbers below zero. -/
def isNegative : Sign → Bool
  | .negative => true
  | .positive => false

section Word

variable (w : BitVec Format.binary64.numBits)

/-- What a word stands for, told by its fields. -/
inductive Unpacks : UnpackedFloat → Prop
  | infinity (s : Sign) (hfield : w.toNat / 2 ^ 52 % 2 ^ 11 = 2047) : Unpacks (.infinity s)
  | notANumber (hfield : w.toNat / 2 ^ 52 % 2 ^ 11 = 2047) : Unpacks .notANumber
  | zero (hfield : w.toNat / 2 ^ 52 % 2 ^ 11 = 0) (hfraction : w.toNat % 2 ^ 52 = 0) :
      Unpacks (.zero (.ofBitVec (unpackSign w)))
  | subnormal (hfield : w.toNat / 2 ^ 52 % 2 ^ 11 = 0) (hfraction : 0 < w.toNat % 2 ^ 52) :
      Unpacks (.finite (.ofBitVec (unpackSign w)) (w.toNat % 2 ^ 52) (-1074) hfraction)
  | normal {field : Nat} (hfield : w.toNat / 2 ^ 52 % 2 ^ 11 = field) (hpos : 0 < field)
      (hlt : field < 2047) (hfraction : 0 < 2 ^ 52 + w.toNat % 2 ^ 52) :
      Unpacks (.finite (.ofBitVec (unpackSign w)) (2 ^ 52 + w.toNat % 2 ^ 52)
        ((field : Int) - 1075) hfraction)

theorem toNat_unpackMantissa : (unpackMantissa w).toNat = w.toNat % 2 ^ 52 := by
  simp [unpackMantissa]

theorem toNat_unpackExponent : (unpackExponent w).toNat = w.toNat / 2 ^ 52 % 2 ^ 11 := by
  simp [unpackExponent, Nat.shiftRight_eq_div_pow]

theorem toNat_unpackSign : (unpackSign w).toNat = w.toNat / 2 ^ 63 := by
  have hlt : w.toNat < 2 ^ 64 := w.isLt
  simp only [unpackSign, BitVec.toNat_cast, BitVec.extractLsb_toNat, Nat.shiftRight_eq_div_pow]
  omega

/-- A leading bit is put in front of the fraction. -/
theorem toNat_append_one (m : BitVec 52) : (1#1 ++ m).toNat = 2 ^ 52 + m.toNat := by
  rw [BitVec.toNat_append, ← Nat.shiftLeft_add_eq_or_of_lt m.isLt]
  rfl

theorem unpacks_unpack : Unpacks w (unpack .binary64 w) := by
  have hmantissa := toNat_unpackMantissa w
  have hexponent := toNat_unpackExponent w
  have hfull : (-1#11).toNat = 2047 := rfl
  unfold unpack
  dsimp only
  split
  next hfield =>
    rw [hfield, hfull] at hexponent
    split
    · exact .infinity _ hexponent.symm
    · exact .notANumber hexponent.symm
  next hinfinite =>
  split
  next hfield =>
    rw [hfield] at hexponent
    split
    next hfraction =>
      rw [hfraction] at hmantissa
      exact .zero hexponent.symm hmantissa.symm
    next hfraction =>
      simp only [hmantissa, hfield]
      exact .subnormal hexponent.symm _
  next hsubnormal =>
    have hlt : (unpackExponent w).toNat < 2 ^ 11 := BitVec.isLt _
    have hpos : (unpackExponent w).toNat ≠ 0 := fun h => hsubnormal (BitVec.eq_of_toNat_eq h)
    have hbelow : (unpackExponent w).toNat ≠ 2047 := fun h => hinfinite (BitVec.eq_of_toNat_eq h)
    have happend : (1#1 ++ unpackMantissa w).toNat = 2 ^ 52 + w.toNat % 2 ^ 52 :=
      (toNat_append_one _).trans (congrArg _ hmantissa)
    simp only [happend]
    exact .normal hexponent.symm (by omega) (by omega) _

end Word

/-- The fields of a float that is unpacked, none for an infinity and for NaN. -/
def ofUnpacked? : UnpackedFloat → Option Binary64
  | .zero s => some ⟨isNegative s, 0, -1074⟩
  | .finite s m e _ => some ⟨isNegative s, m, e⟩
  | _ => none

theorem isNegative_ofBitVec (b : BitVec 1) : isNegative (.ofBitVec b) = (b.toNat == 1) := by
  revert b
  decide

theorem hasSign_eq (f : Float) :
    hasSign f = isNegative (.ofBitVec (@unpackSign .binary64 f.toBits.toBitVec)) := by
  rw [isNegative_ofBitVec, toNat_unpackSign, hasSign, Bool.eq_iff_iff, beq_iff_eq, beq_iff_eq,
    ← UInt64.toNat_inj, UInt64.toNat_shiftRight]
  simp [Nat.shiftRight_eq_div_pow]

/-- The exact value of a float is read off the form in which operations work on it. -/
theorem ofFloat?_eq (f : Float) : ofFloat? f = ofUnpacked? f.toModel.unpack := by
  have hunpacks := unpacks_unpack f.toBits.toBitVec
  change _ = ofUnpacked? (unpack .binary64 f.toBits.toBitVec)
  unfold ofFloat?
  rw [hasSign_eq]
  generalize unpack .binary64 f.toBits.toBitVec = u at hunpacks
  have hbits : f.toBits.toBitVec.toNat = f.toBits.toNat := rfl
  simp only [Nat.pow_eq]
  cases hunpacks with
  | infinity s hfield | notANumber hfield => exact if_pos hfield
  | zero hfield hfraction =>
    rw [hbits] at hfield hfraction
    rw [hfield, hfraction]
    rfl
  | subnormal hfield =>
    rw [hbits] at hfield
    rw [hfield]
    rfl
  | normal hfield hpos hlt =>
    rw [hbits] at hfield
    rw [hfield, if_neg (by omega), if_neg (by omega)]
    rfl

/-- A significand of at most 53 bits and an exponent in range, which is the least one that leaves
the significand whole. -/
structure Canonical (m : Nat) (e : Int) : Prop where
  lt : m < 2 ^ 53
  le_exponent : -1074 ≤ e
  exponent_le : e ≤ 971
  full : 2 ^ 52 ≤ m ∨ e = -1074

section Pack

variable (s : Sign) (exponent : BitVec 11) (mantissa : BitVec 52)

theorem toNat_packComponents_mod :
    (packComponents .binary64 s exponent mantissa).toNat % 2 ^ 52 = mantissa.toNat := by
  rw [← toNat_unpackMantissa, unpackMantissa_packComponents]

theorem toNat_packComponents_div_mod :
    (packComponents .binary64 s exponent mantissa).toNat / 2 ^ 52 % 2 ^ 11 = exponent.toNat := by
  rw [← toNat_unpackExponent, unpackExponent_packComponents]

end Pack

variable {m : Nat} {e : Int} {s : Sign}

theorem biased_eq (e : Int) : e + Format.binary64.exponentBias + (52 : Nat) = e + 1075 := by
  rw [add_assoc]
  rfl

/-- The fields that a number is packed into. A significand without a leading bit goes with the field
0, where the leading bit is not left out. -/
theorem pack_finite (hm : 0 < m) (h : Canonical m e) :
    pack .binary64 (.finite s m e hm) = packComponents .binary64 s
      (.ofNat 11 (if 2 ^ 52 ≤ m then (e + 1075).toNat else 0)) (.ofNat 52 m) := by
  obtain ⟨hlt, hleast, hgreatest, -⟩ := h
  have hbits : m.log2 + 1 = Format.binary64.mantissaBits ↔ 2 ^ 52 ≤ m := by
    have hlog : m.log2 < 53 := (Nat.log2_lt hm.ne').2 hlt
    rw [← Nat.le_log2 hm.ne']
    change m.log2 + 1 = 53 ↔ _
    omega
  unfold pack
  simp only [biased_eq, hbits]
  rw [if_neg (by simp only [Nat.reducePow]; omega)]
  split <;> rfl

/-- What fits into a word is found in it again. -/
theorem unpack_pack (hm : 0 < m) (h : Canonical m e) :
    (Float.Model.pack (.finite s m e hm)).unpack = .finite s m e hm := by
  change unpack .binary64 (pack .binary64 (.finite s m e hm)) = _
  rw [pack_finite hm h]
  obtain ⟨hlt, hleast, hgreatest, hfull⟩ := h
  generalize hw : packComponents .binary64 s _ _ = w
  have hmantissa : w.toNat % 2 ^ 52 = m % 2 ^ 52 := by
    rw [← hw, toNat_packComponents_mod, BitVec.toNat_ofNat]
  have hexponent : w.toNat / 2 ^ 52 % 2 ^ 11 = if 2 ^ 52 ≤ m then (e + 1075).toNat else 0 := by
    rw [← hw, toNat_packComponents_div_mod, BitVec.toNat_ofNat]
    split <;> omega
  have hsign : Sign.ofBitVec (unpackSign w) = s := by
    rw [← hw, unpackSign_packComponents, Sign.ofBitVec_toBitVec]
  have hunpacks := unpacks_unpack w
  generalize unpack .binary64 w = u at hunpacks
  cases hunpacks with
  | infinity _ hfield | notANumber hfield => split at hexponent <;> omega
  | zero hfield hfraction => split at hexponent <;> omega
  | subnormal hfield =>
    split at hexponent
    · omega
    · simp only [hsign, UnpackedFloat.finite.injEq, true_and]
      omega
  | normal hfield hpos hlt =>
    split at hexponent
    · simp only [hsign, UnpackedFloat.finite.injEq, true_and]
      omega
    · omega

theorem unpack_pack_zero : (Float.Model.pack (.zero s)).unpack = .zero s := by
  cases s <;> rfl

/-- A word whose field is not full is a number. -/
theorem isNaN_unpack_packComponents {exponent : BitVec 11} (h : exponent.toNat ≠ 2047)
    (mantissa : BitVec 52) :
    (unpack .binary64 (packComponents .binary64 s exponent mantissa)).isNaN = false := by
  have hfield := toNat_packComponents_div_mod s exponent mantissa
  have hunpacks := unpacks_unpack (packComponents .binary64 s exponent mantissa)
  generalize unpack .binary64 (packComponents .binary64 s exponent mantissa) = u at hunpacks
  cases hunpacks with
  | notANumber hfull => exact absurd (hfield.symm.trans hfull) h
  | _ => rfl

/-- Packing makes NaN of NaN only. A number that is too great becomes infinite. -/
theorem isNaN_pack (u : UnpackedFloat) : (Float.Model.pack u).isNaN = u.isNaN := by
  change (unpack .binary64 (pack .binary64 u)).isNaN = _
  cases u with
  | notANumber => rfl
  | infinity s | zero s => cases s <;> rfl
  | finite s m e hm =>
    unfold pack
    simp only [biased_eq]
    split
    · cases s <;> rfl
    next hfits =>
    have hfield : (e + 1075).toNat + 1 < 2 ^ 11 := Nat.lt_of_not_le hfits
    split
    · refine isNaN_unpack_packComponents ?_ _
      change (e + 1075).toNat % 2 ^ 11 ≠ 2047
      omega
    · exact isNaN_unpack_packComponents (by decide) _

end ComplexFormula.Binary64
