import ComplexFormula.Proofs.Binary64.Rounding

/-!
Float operations are exact wherever they can be. A sum, a difference, a product or a quotient that
is a float itself is what the operation gives, and whole numbers of up to 53 bits are floats. What
is left of a float is its value, a fraction, whose floor the fields of the float tell.
-/

namespace ComplexFormula.Binary64

open Float.Model (Format UnpackedFloat)
open Float.Model.UnpackedFloat

variable {m k : ℕ} {e j : ℤ} {s : Sign} {u v : UnpackedFloat} {p q : ℚ}

/-! ### What is representable -/

theorem representable_of_hasValue (h : HasValue u q) : Representable q := by
  cases u with
  | zero s => exact ⟨0, 0, by simp [show q = 0 from h]⟩
  | finite s m e hm =>
    obtain ⟨⟨hlt, hleast, hgreatest, -⟩, rfl⟩ := h
    exact ⟨m, e, hlt, hleast, hgreatest, abs_apply s m e⟩
  | infinity | notANumber => exact h.elim

/-- Whole numbers of at most 53 bits, and the number after them, at an exponent far from the
greatest. -/
theorem representable_mul {n : ℤ} (hn : |n| ≤ 2 ^ 53) (hj : -1074 ≤ j) (hj' : j ≤ 918) :
    Representable (n * 2 ^ j) := by
  have habs : |(n * 2 ^ j : ℚ)| = n.natAbs * 2 ^ j := by
    have hpos : (0 : ℚ) < 2 ^ j := zpow_pos two_pos j
    rw [abs_mul, Nat.cast_natAbs, Int.cast_abs, abs_of_pos hpos]
  rw [Int.abs_eq_natAbs] at hn
  rcases hn.lt_or_eq with hlt | heq
  · exact ⟨n.natAbs, j, by omega, hj, by omega, habs⟩
  · refine ⟨1, 53 + j, by norm_num, by omega, by omega, ?_⟩
    have hnat : n.natAbs = 2 ^ 53 := by omega
    rw [habs, hnat, zpow_add₀ two_ne_zero]
    norm_num

theorem representable_int {n : ℤ} (hn : |n| ≤ 2 ^ 53) : Representable n := by
  have h := representable_mul (j := 0) hn (by norm_num) (by norm_num)
  rwa [zpow_zero, mul_one] at h

theorem representable_half {n : ℤ} (hn : |n| ≤ 2 ^ 53) : Representable (n / 2) := by
  have h := representable_mul (j := -1) hn (by norm_num) (by norm_num)
  rwa [zpow_neg_one, ← div_eq_mul_inv] at h

/-! ### Operations on what is unpacked -/

theorem HasValue.pack (h : HasValue u q) : HasValue (Float.Model.pack u).unpack q := by
  cases u with
  | zero s => rwa [unpack_pack_zero]
  | finite s m e hm => rwa [unpack_pack hm h.1]
  | infinity | notANumber => exact h.elim

theorem HasValue.neg (h : HasValue u q) : HasValue u.neg (-q) := by
  cases u with
  | zero s => exact neg_eq_zero.2 h
  | finite s m e hm =>
    obtain ⟨hcanonical, rfl⟩ := h
    refine ⟨hcanonical, ?_⟩
    cases s <;> simp [Sign.apply]
  | infinity | notANumber => exact h.elim

theorem HasValue.add (hu : HasValue u p) (hv : HasValue v q) (h : Representable (p + q)) :
    HasValue (u.add .binary64 v) (p + q) := by
  cases u with
  | infinity | notANumber => exact hu.elim
  | zero s =>
    obtain rfl : p = 0 := hu
    rw [zero_add] at h ⊢
    cases v with
    | infinity | notANumber => exact hv.elim
    | zero s' =>
      obtain rfl : q = 0 := hv
      unfold UnpackedFloat.add
      dsimp only
      split <;> rfl
    | finite => exact hv
  | finite s m e hm =>
    cases v with
    | infinity | notANumber => exact hv.elim
    | zero s' =>
      obtain rfl : q = 0 := hv
      rwa [add_zero]
    | finite s' m' e' hm' =>
      obtain ⟨-, rfl⟩ := hu
      obtain ⟨-, rfl⟩ := hv
      rw [← decreaseExponent_value s m e (min e e'), ← decreaseExponent_value s' m' e' (min e e'),
        decreaseExponent_snd, decreaseExponent_snd, min_eq_right (min_le_left e e'),
        min_eq_right (min_le_right e e'), ← add_mul, ← Int.cast_add] at h ⊢
      exact hasValue_normalize .positive h

theorem apply_neg (s : Sign) (n : ℤ) : (-s).apply n = -s.apply n := by
  cases s with
  | negative => exact (neg_neg n).symm
  | positive => rfl

/-- A difference is the sum with the opposite number. -/
theorem sub_eq_add (u v : UnpackedFloat) : u.sub .binary64 v = u.add .binary64 v.neg := by
  cases u with
  | finite s m e hm =>
    cases v with
    | finite s' m' e' hm' =>
      simp only [UnpackedFloat.sub, UnpackedFloat.add, UnpackedFloat.neg, apply_neg, sub_eq_add_neg]
    | _ => rfl
  | _ => cases v <;> rfl

theorem HasValue.sub (hu : HasValue u p) (hv : HasValue v q) (h : Representable (p - q)) :
    HasValue (u.sub .binary64 v) (p - q) := by
  rw [sub_eq_add_neg] at h ⊢
  rw [sub_eq_add]
  exact hu.add hv.neg h

/-- The exponent of a product of two numbers is no greater than rounding can raise it to. -/
theorem le_target_mul {m' : ℕ} {e' : ℤ} (hm : 0 < m) (hm' : 0 < m') (h : Canonical m e)
    (h' : Canonical m' e') : e + e' ≤ max ((m * m').log2 + (e + e') - 52) (-1074) := by
  have hlog : 2 ^ 52 ≤ m * m' → 52 ≤ (m * m').log2 := (Nat.le_log2 (by positivity)).2
  rcases h.full with hfull | hleast
  · have := hlog (hfull.trans (Nat.le_mul_of_pos_right m hm'))
    omega
  · rcases h'.full with hfull | hleast'
    · have := hlog (hfull.trans (Nat.le_mul_of_pos_left m' hm))
      omega
    · omega

theorem apply_mul (s s' : Sign) (n n' : ℤ) : (s * s').apply (n * n') = s.apply n * s'.apply n' := by
  match s, s' with
  | .negative, .negative => exact (neg_mul_neg n n').symm
  | .negative, .positive => exact (neg_mul n n').symm
  | .positive, .negative => exact (mul_neg n n').symm
  | .positive, .positive => rfl

theorem HasValue.mul (hu : HasValue u p) (hv : HasValue v q) (h : Representable (p * q)) :
    HasValue (u.mul .binary64 v) (p * q) := by
  cases u with
  | infinity | notANumber => exact hu.elim
  | zero s =>
    obtain rfl : p = 0 := hu
    rw [zero_mul]
    cases v with
    | infinity | notANumber => exact hv.elim
    | zero | finite => rfl
  | finite s m e hm =>
    cases v with
    | infinity | notANumber => exact hv.elim
    | zero s' =>
      obtain rfl : q = 0 := hv
      rw [mul_zero]
      rfl
    | finite s' m' e' hm' =>
      obtain ⟨hcanonical, rfl⟩ := hu
      obtain ⟨hcanonical', rfl⟩ := hv
      have hproduct : (s.apply m : ℚ) * 2 ^ e * (s'.apply m' * 2 ^ e') =
          (s * s').apply ((m * m' : ℕ) : ℤ) * 2 ^ (e + e') := by
        rw [mul_mul_mul_comm, ← zpow_add₀ two_ne_zero, Nat.cast_mul, apply_mul, Int.cast_mul]
      rw [hproduct] at h ⊢
      exact hasValue_roundWithAccuracy (by positivity)
        (le_target_mul hm hm' hcanonical hcanonical') h

section Quotient

variable {m' : ℕ} {e' : ℤ}

/-- A quotient lies above half of the quotient of the leading bits. -/
theorem lt_quotient (e e' : ℤ) (hm : 0 < m) (hm' : 0 < m') :
    (2 : ℚ) ^ ((m.log2 : ℤ) + e - (m'.log2 + e') - 1) < m * 2 ^ e / (m' * 2 ^ e') := by
  generalize hL : (m.log2 : ℤ) + e - (m'.log2 + e') = L
  rw [lt_div_iff₀ (mul_pos (Nat.cast_pos.2 hm') (zpow_pos two_pos e'))]
  calc (2 : ℚ) ^ (L - 1) * (m' * 2 ^ e')
      < 2 ^ (L - 1) * 2 ^ (((m'.log2 + 1 : ℕ) : ℤ) + e') :=
        mul_lt_mul_of_pos_left (lt_two_zpow Nat.lt_log2_self e') (zpow_pos two_pos _)
    _ = 2 ^ ((m.log2 : ℤ) + e) := by
        rw [← zpow_add₀ two_ne_zero]
        congr 1
        omega
    _ ≤ m * 2 ^ e := two_zpow_le hm e

theorem targetExponent_quotient (m : ℕ) (e : ℤ) (m' : ℕ) (e' : ℤ) :
    Format.binary64.targetExponent
      (Float.Model.totalExponent m e - Float.Model.totalExponent m' e') =
        max ((m.log2 : ℤ) + e - (m'.log2 + e') - 53) (-1074) := by
  rw [targetExponent_eq_max, Float.Model.totalExponent, Float.Model.totalExponent]
  omega

/-- The division leaves no rest if the quotient is a whole number at the exponent that is taken. -/
theorem shiftLeft_eq_mul {c n : ℕ} {t : ℤ} (hm' : 0 < m') (hn : e - e' - t = n)
    (hc : (c : ℚ) * 2 ^ t = m * 2 ^ e / (m' * 2 ^ e')) : m <<< n = m' * c := by
  have hscale : (2 : ℚ) ^ e' * 2 ^ t ≠ 0 :=
    (mul_pos (zpow_pos two_pos e') (zpow_pos two_pos t)).ne'
  have hexponent : (2 : ℚ) ^ n * (2 ^ e' * 2 ^ t) = 2 ^ e := by
    rw [← zpow_natCast, ← hn, ← zpow_add₀ two_ne_zero, ← zpow_add₀ two_ne_zero, sub_sub,
      sub_add_cancel]
  have hdivisor : (m' : ℚ) * 2 ^ e' ≠ 0 :=
    (mul_pos (Nat.cast_pos.2 hm') (zpow_pos two_pos e')).ne'
  rw [eq_div_iff hdivisor] at hc
  refine Nat.cast_injective (R := ℚ) (mul_right_cancel₀ hscale ?_)
  rw [Nat.shiftLeft_eq, Nat.cast_mul, Nat.cast_pow, Nat.cast_ofNat, mul_assoc, hexponent, ← hc,
    Nat.cast_mul]
  ring

/-- The quotient of two numbers comes out even, and with enough bits, if it is representable. -/
theorem divCore_of_representable (hm : 0 < m) (hm' : 0 < m')
    (h : Representable (m * 2 ^ e / (m' * 2 ^ e'))) : ∃ c t, 0 < c ∧
      divCore .binary64 m e m' e' = (c, t, .exact) ∧ t ≤ max (c.log2 + t - 52) (-1074) ∧
      (c : ℚ) * 2 ^ t = m * 2 ^ e / (m' * 2 ^ e') := by
  have hbelow := lt_quotient e e' hm hm'
  have htarget := targetExponent_quotient m e m' e'
  generalize hq : (m : ℚ) * 2 ^ e / (m' * 2 ^ e') = q at h hbelow ⊢
  generalize (m.log2 : ℤ) + e - (m'.log2 + e') = L at hbelow htarget
  obtain ⟨k, j, hk, hj, -, hvalue⟩ := h
  have hpos : 0 < q := (zpow_pos two_pos _).trans hbelow
  rw [abs_of_pos hpos] at hvalue
  generalize ht : min (e - e') (max (L - 53) (-1074)) = t
  have htj : t ≤ j := by
    have hlt := hbelow.trans (hvalue ▸ lt_two_zpow hk j)
    rw [zpow_lt_zpow_iff_right₀ one_lt_two] at hlt
    omega
  have hc : ((k * 2 ^ (j - t).toNat : ℕ) : ℚ) * 2 ^ t = q := by
    rw [Nat.cast_mul, ← two_zpow_eq (by omega), mul_assoc, ← zpow_add₀ two_ne_zero, sub_add_cancel,
      hvalue]
  generalize k * 2 ^ (j - t).toNat = c at hc
  refine ⟨c, t, Nat.pos_of_ne_zero fun h => hpos.ne ?_, ?_, ?_, hc⟩
  · rw [← hc, h, Nat.cast_zero, zero_mul]
  · have hn : e - e' - t = (e - e' - t).toNat := by omega
    have hshift := shiftLeft_eq_mul hm' hn (hc.trans hq.symm)
    simp only [divCore, htarget, ht, hshift, Nat.mul_div_cancel_left _ hm', Nat.mul_mod_right]
    rfl
  · have hlt := hbelow.trans (hc ▸ lt_two_zpow (Nat.lt_log2_self (n := c)) t)
    rw [zpow_lt_zpow_iff_right₀ one_lt_two] at hlt
    omega

end Quotient

theorem apply_eq (s : Sign) (n : ℤ) : (s.apply n : ℚ) = s.apply 1 * n := by
  cases s <;> simp [Sign.apply]

theorem apply_div (s s' : Sign) : ((s / s').apply 1 : ℚ) = s.apply 1 / s'.apply 1 := by
  match s, s' with
  | .negative, .negative => exact (div_self (by norm_num [Sign.apply])).symm
  | .negative, .positive => exact (div_one _).symm
  | .positive, .negative => exact (Int.cast_neg 1).trans (by norm_num [Sign.apply])
  | .positive, .positive => exact (div_one _).symm

theorem representable_abs : Representable |q| ↔ Representable q := by
  simp only [Representable, abs_abs]

theorem HasValue.div (hu : HasValue u p) (hv : HasValue v q) (hq : q ≠ 0)
    (h : Representable (p / q)) : HasValue (u.div .binary64 v) (p / q) := by
  cases u with
  | infinity | notANumber => exact hu.elim
  | zero s =>
    obtain rfl : p = 0 := hu
    rw [zero_div]
    cases v with
    | infinity | notANumber => exact hv.elim
    | zero => exact absurd hv hq
    | finite => rfl
  | finite s m e hm =>
    cases v with
    | infinity | notANumber => exact hv.elim
    | zero s' => exact absurd hv hq
    | finite s' m' e' hm' =>
      obtain ⟨-, rfl⟩ := hu
      obtain ⟨-, rfl⟩ := hv
      have habs : Representable (m * 2 ^ e / (m' * 2 ^ e')) := by
        rwa [← abs_apply s, ← abs_apply s', ← abs_div, representable_abs]
      obtain ⟨c, t, hc, hcore, ht, hvalue⟩ := divCore_of_representable hm hm' habs
      have hquotient : (s.apply m : ℚ) * 2 ^ e / (s'.apply m' * 2 ^ e') =
          (s / s').apply c * 2 ^ t := by
        rw [apply_eq s, apply_eq s', apply_eq (s / s'), apply_div, mul_assoc, mul_assoc,
          mul_div_mul_comm, mul_assoc]
        exact congrArg _ hvalue.symm
      rw [hquotient] at h ⊢
      simp only [UnpackedFloat.div, hcore]
      exact hasValue_roundWithAccuracy hc ht h

/-! ### Floats -/

section Denotes

variable {f g : Float}

theorem Denotes.add (hf : Denotes f p) (hg : Denotes g q) (h : Representable (p + q)) :
    Denotes (f + g) (p + q) :=
  (HasValue.add hf hg h).pack

theorem Denotes.sub (hf : Denotes f p) (hg : Denotes g q) (h : Representable (p - q)) :
    Denotes (f - g) (p - q) :=
  (HasValue.sub hf hg h).pack

theorem Denotes.mul (hf : Denotes f p) (hg : Denotes g q) (h : Representable (p * q)) :
    Denotes (f * g) (p * q) :=
  (HasValue.mul hf hg h).pack

theorem Denotes.div (hf : Denotes f p) (hg : Denotes g q) (hq : q ≠ 0) (h : Representable (p / q)) :
    Denotes (f / g) (p / q) :=
  (HasValue.div hf hg hq h).pack

theorem Denotes.neg (hf : Denotes f p) : Denotes (-f) (-p) :=
  (HasValue.neg hf).pack

theorem Denotes.isFinite (hf : Denotes f p) : f.isFinite = true := by
  change f.toModel.unpack.isFinite = true
  unfold Denotes at hf
  generalize f.toModel.unpack = u at hf
  cases u with
  | zero | finite => rfl
  | infinity | notANumber => exact hf.elim

/-! ### Whole numbers -/

theorem denotes_toFloat {w : UInt64} (hw : w.toNat < 2 ^ 53) : Denotes w.toFloat w.toNat := by
  have hrepresentable : Representable (((w.toNat : ℕ) : ℤ) * 2 ^ (0 : ℤ)) :=
    ⟨w.toNat, 0, hw, by norm_num, by norm_num, by simp⟩
  have hvalue := (hasValue_normalize .positive hrepresentable).pack
  rwa [zpow_zero, mul_one, Int.cast_natCast] at hvalue

/-- The power of ten by which a literal without a fraction is multiplied. -/
theorem denotes_one : Denotes (Float.ofBits 0x3FF0000000000000) 1 := by
  have hfinite : HasValue (.finite .positive (2 ^ 52) (-52) (by decide)) 1 :=
    ⟨⟨by decide, by decide, by decide, .inl le_rfl⟩, by norm_num [Sign.apply]⟩
  have hfloat : Float.ofBits 0x3FF0000000000000 =
      Float.ofModel (.pack (.finite .positive (2 ^ 52) (-52) (by decide))) := by
    decide +kernel
  rw [hfloat]
  exact hfinite.pack

theorem denotes_ofNat_of_lt {n : ℕ} (hn : n < 2 ^ 53) : Denotes (Float.ofNat n) n := by
  have hword : n.toUInt64.toNat = n := UInt64.toNat_ofNat_of_lt' (hn.trans (by decide))
  have hfloat : Denotes n.toUInt64.toFloat n := by
    have h := denotes_toFloat (hword ▸ hn)
    rwa [hword] at h
  have hproduct : Float.ofNat n = n.toUInt64.toFloat * Float.ofBits 0x3FF0000000000000 :=
    dif_pos ⟨hn, Nat.zero_le _⟩
  rw [hproduct, ← mul_one (n : ℚ)]
  refine hfloat.mul denotes_one ?_
  rw [mul_one]
  exact representable_of_hasValue hfloat

/-- Whole numbers of at most 53 bits are floats, and so is the number after them, which is even. -/
theorem denotes_ofNat {n : ℕ} (hn : n ≤ 2 ^ 53) : Denotes (Float.ofNat n) n := by
  rcases hn.lt_or_eq with hlt | rfl
  · exact denotes_ofNat_of_lt hlt
  · have hsum : Float.ofNat (2 ^ 53) = Float.ofNat (2 ^ 52) + Float.ofNat (2 ^ 52) := by
      decide +kernel
    have hhalf := denotes_ofNat_of_lt (n := 2 ^ 52) (by decide)
    have hcast : ((2 ^ 53 : ℕ) : ℚ) = (2 ^ 52 : ℕ) + (2 ^ 52 : ℕ) := by norm_num
    rw [hsum, hcast]
    exact hhalf.add hhalf ⟨1, 53, by decide, by decide, by decide, by norm_num⟩

/-! ### The floor -/

theorem floor_fields (s : Sign) (m : ℕ) (e : ℤ) :
    floor ⟨isNegative s, m, e⟩ = ⌊(s.apply m : ℚ) * 2 ^ e⌋ := by
  have hsigned : signed ⟨isNegative s, m, e⟩ = s.apply m := by cases s <;> rfl
  rw [Binary64.floor, hsigned]
  dsimp only
  split
  next he =>
    rw [two_zpow_eq he, ← Int.cast_natCast (2 ^ e.toNat), ← Int.cast_mul, Int.floor_intCast]
    rfl
  next he =>
    have hquotient : (s.apply m : ℚ) * 2 ^ e = s.apply m / (2 ^ (-e).toNat : ℕ) := by
      rw [← two_zpow_eq (by omega), zpow_neg, div_inv_eq_mul]
    rw [hquotient, Rat.floor_intCast_div_natCast]
    rfl

/-- The floor of a float is that of its value. -/
theorem Denotes.floor (hf : Denotes f q) : ∃ b, ofFloat? f = some b ∧ b.floor = ⌊q⌋ := by
  rw [ofFloat?_eq]
  unfold Denotes at hf
  generalize f.toModel.unpack = u at hf
  cases u with
  | infinity | notANumber => exact hf.elim
  | zero s =>
    obtain rfl : q = 0 := hf
    refine ⟨_, rfl, (floor_fields s 0 (-1074)).trans ?_⟩
    have hzero : (s.apply (0 : ℕ) : ℚ) = 0 := by cases s <;> simp [Sign.apply]
    rw [hzero, zero_mul]
  | finite s m e hm =>
    obtain ⟨-, rfl⟩ := hf
    exact ⟨_, rfl, floor_fields s m e⟩

end Denotes

end ComplexFormula.Binary64
