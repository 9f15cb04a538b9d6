import ComplexFormula.Proofs.Binary64.Packing

/-!
Rounding to a significand of 53 bits. A number that needs no more bits than these comes out of it as
it went in, however many zeros its significand is written with.
-/

namespace ComplexFormula.Binary64

open Float.Model (Format UnpackedFloat)
open Float.Model.UnpackedFloat

/-- The numbers that floats are: a significand of at most 53 bits and an exponent in range. -/
def Representable (q : ℚ) : Prop :=
  ∃ (k : ℕ) (j : ℤ), k < 2 ^ 53 ∧ -1074 ≤ j ∧ j ≤ 971 ∧ |q| = k * 2 ^ j

/-- What an unpacked float is, if it is a number that fits into a word. -/
def HasValue : UnpackedFloat → ℚ → Prop
  | .zero _, q => q = 0
  | .finite s m e _, q => Canonical m e ∧ s.apply m * 2 ^ e = q
  | _, _ => False

/-- The float is neither infinite nor NaN, and its exact value is `q`. -/
def Denotes (f : Float) (q : ℚ) : Prop :=
  HasValue f.toModel.unpack q

variable {m k : ℕ} {e j : ℤ} {s : Sign}

/-! ### Significands and exponents -/

theorem abs_apply (s : Sign) (m : ℕ) (e : ℤ) : |(s.apply m : ℚ) * 2 ^ e| = m * 2 ^ e := by
  have hpos : (0 : ℚ) < 2 ^ e := zpow_pos two_pos e
  cases s <;> simp [Sign.apply, abs_mul, abs_of_pos hpos]

theorem two_zpow_le (hm : 0 < m) (e : ℤ) : (2 : ℚ) ^ (m.log2 + e) ≤ m * 2 ^ e := by
  rw [zpow_add₀ two_ne_zero, zpow_natCast]
  have hle : ((2 ^ m.log2 : ℕ) : ℚ) ≤ m := Nat.cast_le.2 (Nat.log2_self_le hm.ne')
  rw [Nat.cast_pow, Nat.cast_ofNat] at hle
  exact mul_le_mul_of_nonneg_right hle (zpow_pos two_pos e).le

theorem lt_two_zpow {n : ℕ} (h : k < 2 ^ n) (j : ℤ) : (k : ℚ) * 2 ^ j < 2 ^ ((n : ℤ) + j) := by
  rw [zpow_add₀ two_ne_zero, zpow_natCast]
  have hlt : (k : ℚ) < ((2 ^ n : ℕ) : ℚ) := Nat.cast_lt.2 h
  rw [Nat.cast_pow, Nat.cast_ofNat] at hlt
  exact mul_lt_mul_of_pos_right hlt (zpow_pos two_pos j)

/-- The leading bit is moved to the 53rd place, unless that would need too small an exponent. -/
theorem targetExponent_eq_max (e : ℤ) :
    Format.binary64.targetExponent e = max (e - 53) (-1074) :=
  rfl

theorem targetExponent_eq (m : ℕ) (e : ℤ) :
    Format.binary64.targetExponent (Float.Model.totalExponent m e) =
      max (m.log2 + e - 52) (-1074) := by
  rw [targetExponent_eq_max, Float.Model.totalExponent]
  omega

/-- The exponent of a number that needs no rounding is no greater than any with which it can be
written. -/
theorem target_le (hm : 0 < m) (hk : k < 2 ^ 53) (hj : -1074 ≤ j)
    (h : (m : ℚ) * 2 ^ e = k * 2 ^ j) : max (m.log2 + e - 52) (-1074) ≤ j := by
  have hlt : (2 : ℚ) ^ ((m.log2 : ℤ) + e) < 2 ^ (((53 : ℕ) : ℤ) + j) :=
    (two_zpow_le hm e).trans_lt (h ▸ lt_two_zpow hk j)
  rw [zpow_lt_zpow_iff_right₀ one_lt_two] at hlt
  omega

theorem two_zpow_eq {i : ℤ} (hi : 0 ≤ i) : (2 : ℚ) ^ i = ((2 ^ i.toNat : ℕ) : ℚ) := by
  rw [Nat.cast_pow, Nat.cast_ofNat, ← zpow_natCast, Int.toNat_of_nonneg hi]

/-- A number is written with the lower exponent by putting zeros behind its significand. -/
theorem dvd_of_le {t : ℤ} (het : e ≤ t) (htj : t ≤ j) (h : (m : ℚ) * 2 ^ e = k * 2 ^ j) :
    2 ^ (t - e).toNat ∣ m := by
  have hm : (m : ℚ) = k * 2 ^ (j - t) * 2 ^ (t - e) := by
    rw [mul_assoc, ← zpow_add₀ two_ne_zero, sub_add_sub_cancel, zpow_sub₀ two_ne_zero,
      ← mul_div_assoc, ← h, mul_div_cancel_right₀ _ (zpow_pos two_pos e).ne']
  refine ⟨k * 2 ^ (j - t).toNat, ?_⟩
  rw [two_zpow_eq (by omega), two_zpow_eq (by omega), ← Nat.cast_mul, ← Nat.cast_mul] at hm
  rw [Nat.cast_injective hm, mul_comm]

/-- Bits that are all zero are shifted out without a trace. -/
theorem shiftRight_of_dvd {n : ℕ} (c : ℕ) :
    (ExtendedMantissa.mk (2 ^ n * c) false false) >>> n = ⟨c, false, false⟩ := by
  induction n generalizing c with
  | zero => rw [pow_zero, one_mul]; rfl
  | succ n ih =>
    have hstep : (ExtendedMantissa.mk (2 ^ (n + 1) * c) false false) >>> (n + 1) =
        ((ExtendedMantissa.mk (2 ^ n * (2 * c)) false false) >>> n).shiftRightOne := by
      rw [pow_succ, mul_assoc]
      rfl
    rw [hstep, ih, ExtendedMantissa.shiftRightOne]
    simp

/-- A significand that is small enough stays where it is. -/
theorem shiftToTargetExponent_of_lt (hm : m < 2 ^ 53) (he : -1074 ≤ e) :
    shiftToTargetExponent .binary64 m e .exact = (⟨m, false, false⟩, e) := by
  have hlog : m.log2 ≤ 52 := by
    rcases Nat.eq_zero_or_pos m with rfl | hpos
    · decide
    · exact Nat.le_of_lt_succ ((Nat.log2_lt hpos.ne').2 hm)
  have hzero : (max ((m.log2 : ℤ) + e - 52) (-1074) - e).toNat = 0 := by omega
  rw [shiftToTargetExponent, targetExponent_eq, shiftToExponent, hzero]
  simp only [Nat.cast_zero, add_zero]
  rfl

section Shift

variable {c n : ℕ} {t : ℤ}

/-- What is left of a significand when it is shifted to its place is as long as it can be. -/
theorem canonical_of_shift (hc : m = 2 ^ n * c) (hcpos : 0 < c) (hn : e + n = t)
    (ht : max (m.log2 + e - 52) (-1074) = t) (hgreatest : t ≤ 971) : Canonical c t := by
  have hm : m ≠ 0 := by
    rw [hc]
    positivity
  have hlow : 2 ^ m.log2 ≤ 2 ^ n * c := hc ▸ Nat.log2_self_le hm
  have hhigh : 2 ^ n * c < 2 ^ (m.log2 + 1) := hc ▸ Nat.lt_log2_self
  refine ⟨?_, by omega, hgreatest, or_iff_not_imp_right.2 fun hleast => ?_⟩
  · have hle : 2 ^ (m.log2 + 1) ≤ 2 ^ n * 2 ^ 53 := by
      rw [← pow_add]
      exact Nat.pow_le_pow_right two_pos (by omega)
    exact Nat.lt_of_mul_lt_mul_left (hhigh.trans_le hle)
  · have hle : 2 ^ n * 2 ^ 52 ≤ 2 ^ m.log2 := by
      rw [← pow_add]
      exact Nat.pow_le_pow_right two_pos (by omega)
    exact Nat.le_of_mul_le_mul_left (hle.trans hlow) (by positivity)

theorem roundWithAccuracy_of_shift (hc : m = 2 ^ n * c) (hcpos : 0 < c) (hn : (t - e).toNat = n)
    (hexponent : e + n = t) (ht : max (m.log2 + e - 52) (-1074) = t) (hcanonical : Canonical c t) :
    roundWithAccuracy .binary64 s m e .exact = .finite s c t hcpos := by
  have hshift : shiftToTargetExponent .binary64 m e .exact = (⟨c, false, false⟩, t) := by
    rw [shiftToTargetExponent, targetExponent_eq, ht, shiftToExponent, hn, hexponent, hc]
    exact congrArg (·, t) (shiftRight_of_dvd c)
  have hmantissa : ExtendedMantissa.roundedMantissa ⟨c, false, false⟩ = c := rfl
  rw [roundWithAccuracy]
  simp only [hshift, hmantissa,
    shiftToTargetExponent_of_lt hcanonical.lt hcanonical.le_exponent]
  exact dif_neg hcpos.ne'

end Shift

/-! ### Rounding -/

/-- A number that a float is, is not changed by rounding. -/
theorem hasValue_roundWithAccuracy (hm : 0 < m) (he : e ≤ max (m.log2 + e - 52) (-1074))
    (h : Representable (s.apply m * 2 ^ e)) :
    HasValue (roundWithAccuracy .binary64 s m e .exact) (s.apply m * 2 ^ e) := by
  obtain ⟨k, j, hk, hj, hj', hq⟩ := h
  rw [abs_apply] at hq
  have htarget := target_le hm hk hj hq
  generalize ht : max ((m.log2 : ℤ) + e - 52) (-1074) = t at he htarget
  obtain ⟨c, hc⟩ := dvd_of_le he htarget hq
  generalize hn : (t - e).toNat = n at hc
  have hexponent : e + (n : ℤ) = t := by omega
  have hcpos : 0 < c := Nat.pos_of_ne_zero fun h => by simp [hc, h] at hm
  have hcanonical := canonical_of_shift hc hcpos hexponent ht (htarget.trans hj')
  rw [roundWithAccuracy_of_shift hc hcpos hn hexponent ht hcanonical]
  refine ⟨hcanonical, ?_⟩
  rw [hc, ← hexponent, add_comm, zpow_add₀ two_ne_zero, zpow_natCast]
  cases s <;> simp [Sign.apply] <;> ring

theorem normalize_apply (hm : 0 < m) (e : ℤ) (zeroSign : Sign) :
    UnpackedFloat.normalize .binary64 (s.apply m) e zeroSign =
      UnpackedFloat.round .binary64 s m e := by
  cases s with
  | negative =>
    have hcompare : compare (-(m : ℤ)) 0 = .lt := compare_lt_iff_lt.2 (by omega)
    simp only [Sign.apply, UnpackedFloat.normalize, hcompare, neg_neg, Int.toNat_natCast]
  | positive =>
    have hcompare : compare (m : ℤ) 0 = .gt := compare_gt_iff_gt.2 (by omega)
    simp only [Sign.apply, UnpackedFloat.normalize, hcompare, Int.toNat_natCast]

/-- Zeros are put behind a significand without changing the number. -/
theorem decreaseExponent_value (s : Sign) (m : ℕ) (e t : ℤ) :
    (s.apply (decreaseExponent m e t).1 : ℚ) * 2 ^ (decreaseExponent m e t).2 =
      s.apply m * 2 ^ e := by
  simp only [decreaseExponent]
  generalize (e - t).toNat = n
  have hsplit : (2 : ℚ) ^ e = 2 ^ n * 2 ^ (e - n) := by
    rw [← zpow_natCast, ← zpow_add₀ two_ne_zero, add_sub_cancel]
  rw [hsplit, ← mul_assoc]
  cases s <;> simp [Sign.apply, Nat.shiftLeft_eq]

theorem decreaseExponent_snd (m : ℕ) (e t : ℤ) : (decreaseExponent m e t).2 = min e t := by
  simp only [decreaseExponent]
  omega

/-- The place of the leading bit counts as much as before. -/
theorem log2_decreaseExponent (hm : 0 < m) (e t : ℤ) :
    m.log2 + e ≤ (decreaseExponent m e t).1.log2 + (decreaseExponent m e t).2 := by
  simp only [decreaseExponent]
  generalize (e - t).toNat = n
  have hpos : m <<< n ≠ 0 := by
    rw [Nat.shiftLeft_eq]
    positivity
  have hle : m.log2 + n ≤ (m <<< n).log2 := by
    rw [Nat.le_log2 hpos, Nat.shiftLeft_eq, pow_add]
    exact Nat.mul_le_mul_right _ (Nat.log2_self_le hm.ne')
  omega

theorem hasValue_round (hm : 0 < m) (h : Representable (s.apply m * 2 ^ e)) :
    HasValue (UnpackedFloat.round .binary64 s m e) (s.apply m * 2 ^ e) := by
  rw [UnpackedFloat.round, targetExponent_eq]
  generalize ht : max ((m.log2 : ℤ) + e - 52) (-1074) = t
  have hexponent := decreaseExponent_snd m e t
  have hlog := log2_decreaseExponent hm e t
  have hvalue := decreaseExponent_value s m e t
  have hpos : 0 < (decreaseExponent m e t).1 := by
    rw [decreaseExponent, Nat.shiftLeft_eq]
    positivity
  rw [← hvalue] at h ⊢
  exact (hasValue_roundWithAccuracy hpos (by omega) h :)

theorem exists_apply_eq {n : ℤ} (hn : n ≠ 0) : ∃ s m, 0 < m ∧ Sign.apply s (m : ℕ) = n := by
  rcases hn.lt_or_gt with hlt | hlt
  · exact ⟨.negative, n.natAbs, by omega, by simp only [Sign.apply]; omega⟩
  · exact ⟨.positive, n.natAbs, by omega, by simp only [Sign.apply]; omega⟩

theorem hasValue_normalize {n : ℤ} (zeroSign : Sign) (h : Representable (n * 2 ^ e)) :
    HasValue (UnpackedFloat.normalize .binary64 n e zeroSign) (n * 2 ^ e) := by
  rcases eq_or_ne n 0 with rfl | hn
  · simp [UnpackedFloat.normalize, HasValue]
  · obtain ⟨s, m, hm, rfl⟩ := exists_apply_eq hn
    rw [normalize_apply hm]
    exact hasValue_round hm h

end ComplexFormula.Binary64
