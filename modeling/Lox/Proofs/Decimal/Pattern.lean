import Lox.Proofs.Decimal.Rounding

/-!
# The numbers that doubles stand for

A double is read off its bit pattern as a sign, a mantissa and an exponent.  Every finite double is
the one nearest to its own value, and the product and the quotient of two doubles are the doubles
nearest to the product and the quotient of their values.
-/

namespace Lox.Double

open Float.Model Float.Model.UnpackedFloat
open Decimal (binaryParts)

def rational (x : Float) : ℚ :=
  match x.toModel.unpack with
  | .finite sign n t _ => sign.apply n * 2 ^ t
  | _ => 0

def magnitude (x : Float) : ℚ :=
  (binaryParts x).1 * 2 ^ (binaryParts x).2

/-- A double is its bit pattern. -/
theorem eq_of_toNat {x y : Float} (h : x.toBits.toNat = y.toBits.toNat) : x = y := by
  obtain ⟨⟨a, _⟩⟩ := x
  obtain ⟨⟨b, _⟩⟩ := y
  obtain rfl : a = b := UInt64.toNat_inj.mp h
  rfl

/-! ## Fields of a pattern -/

theorem toNat_unpackMantissa (b : BitVec 64) :
    (@unpackMantissa Format.binary64 b).toNat = b.toNat % 2 ^ 52 := by
  simp [unpackMantissa]

theorem toNat_unpackExponent (b : BitVec 64) :
    (@unpackExponent Format.binary64 b).toNat = b.toNat / 2 ^ 52 % 2 ^ 11 := by
  simp [unpackExponent, Nat.shiftRight_eq_div_pow]

theorem toNat_unpackSign (b : BitVec 64) :
    (@unpackSign Format.binary64 b).toNat = b.toNat / 2 ^ 63 := by
  have := b.isLt
  simp [unpackSign, Nat.shiftRight_eq_div_pow]
  omega

section

variable (x : Float)

def signOf : Sign :=
  if 2 ^ 63 ≤ x.toBits.toNat then .negative else .positive

/-- Mantissa and exponent are read off the pattern; without an exponent the leading bit is not set.
-/
theorem binaryParts_eq : binaryParts x =
    if x.toBits.toNat / 2 ^ 52 % 2 ^ 11 = 0 then (x.toBits.toNat % 2 ^ 52, -1074)
    else (x.toBits.toNat % 2 ^ 52 + 2 ^ 52, ((x.toBits.toNat / 2 ^ 52 % 2 ^ 11 : ℕ) : ℤ) - 1075) :=
  rfl

/-- Mantissa and exponent are as a double has them. -/
theorem canonical_binaryParts : Canonical (binaryParts x).1 (binaryParts x).2 := by
  rw [binaryParts_eq]
  split_ifs with hfield <;> constructor <;> omega

/-- The pattern, apart from the sign, is put together again from mantissa and exponent. -/
theorem pattern_binaryParts :
    ((binaryParts x).2 + 1074).toNat * 2 ^ 52 + (binaryParts x).1 = x.toBits.toNat % 2 ^ 63 := by
  rw [binaryParts_eq]
  split_ifs with hfield <;> simp only <;> omega

theorem ofBitVec_unpackSign :
    Sign.ofBitVec (@unpackSign Format.binary64 x.toBits.toBitVec) = signOf x := by
  have hfield : (@unpackSign Format.binary64 x.toBits.toBitVec).toNat = x.toBits.toNat / 2 ^ 63 :=
    toNat_unpackSign _
  have hzero : @unpackSign Format.binary64 x.toBits.toBitVec = 0#1 ↔ ¬2 ^ 63 ≤ x.toBits.toNat := by
    rw [← BitVec.toNat_inj, hfield, BitVec.toNat_ofNat]
    omega
  simp only [Sign.ofBitVec, signOf, hzero, ite_not]

/-- A pattern whose exponent is not the largest is that of a number. -/
theorem unpack_of_field (h : x.toBits.toNat / 2 ^ 52 % 2 ^ 11 ≠ 2047) :
    x.toModel.unpack = assemble (signOf x) (binaryParts x).1 (binaryParts x).2 := by
  have hexponent : (@unpackExponent Format.binary64 x.toBits.toBitVec).toNat =
      x.toBits.toNat / 2 ^ 52 % 2 ^ 11 := toNat_unpackExponent _
  have hmantissa : (@unpackMantissa Format.binary64 x.toBits.toBitVec).toNat =
      x.toBits.toNat % 2 ^ 52 := toNat_unpackMantissa _
  have hfinite : @unpackExponent Format.binary64 x.toBits.toBitVec ≠ -1#11 := by
    intro heq
    rw [heq] at hexponent
    exact h hexponent.symm
  have hbias : (Format.binary64.exponentBias : ℤ) + (52 : ℕ) = 1075 := rfl
  change UnpackedFloat.unpack Format.binary64 x.toBits.toBitVec = _
  rw [UnpackedFloat.unpack, ofBitVec_unpackSign]
  simp only [if_neg hfinite]
  rw [binaryParts_eq]
  by_cases hfield : x.toBits.toNat / 2 ^ 52 % 2 ^ 11 = 0
  · have hlowest : @unpackExponent Format.binary64 x.toBits.toBitVec = 0#11 :=
      BitVec.eq_of_toNat_eq (hexponent.trans hfield)
    have hzero : @unpackMantissa Format.binary64 x.toBits.toBitVec = 0#52 ↔
        x.toBits.toNat % 2 ^ 52 = 0 := by
      rw [← BitVec.toNat_inj, hmantissa, BitVec.toNat_ofNat, Nat.zero_mod]
    simp only [if_pos hlowest, assemble, hzero, hmantissa, hexponent, hfield, hbias, if_true,
      Nat.cast_zero]
    norm_num
  · have hlowest : @unpackExponent Format.binary64 x.toBits.toBitVec ≠ 0#11 := by
      intro heq
      rw [heq] at hexponent
      exact hfield hexponent.symm
    have hfull : (1#1 ++ @unpackMantissa Format.binary64 x.toBits.toBitVec).toNat =
        x.toBits.toNat % 2 ^ 52 + 2 ^ 52 := by
      have hlt := (@unpackMantissa Format.binary64 x.toBits.toBitVec).isLt
      rw [BitVec.toNat_append, ← Nat.shiftLeft_add_eq_or_of_lt hlt, hmantissa, Nat.add_comm]
      rfl
    have hpos : x.toBits.toNat % 2 ^ 52 + 2 ^ 52 ≠ 0 := by omega
    simp only [if_neg hlowest, if_neg hfield, assemble, hfull, hexponent, hbias, dif_neg hpos]

/-- A double is finite unless all bits of its exponent are set. -/
theorem isFinite_iff : x.isFinite = true ↔ x.toBits.toNat / 2 ^ 52 % 2 ^ 11 ≠ 2047 := by
  constructor
  · intro hfinite hfield
    have hexponent : @unpackExponent Format.binary64 x.toBits.toBitVec = -1#11 :=
      BitVec.eq_of_toNat_eq ((toNat_unpackExponent _).trans hfield)
    change (UnpackedFloat.unpack Format.binary64 x.toBits.toBitVec).isFinite = true at hfinite
    rw [UnpackedFloat.unpack, if_pos hexponent] at hfinite
    split_ifs at hfinite <;> cases hfinite
  · intro hfield
    change x.toModel.unpack.isFinite = true
    rw [unpack_of_field x hfield, assemble]
    split_ifs <;> rfl

end

section

variable {x : Float}

/-- The runtime takes a finite double apart in the same way. -/
theorem unpack_eq (h : x.isFinite = true) :
    x.toModel.unpack = assemble (signOf x) (binaryParts x).1 (binaryParts x).2 :=
  unpack_of_field x ((isFinite_iff x).mp h)

theorem isNaN_eq_false (h : x.isFinite = true) : x.isNaN = false := by
  change x.toModel.unpack.isNaN = false
  rw [unpack_eq h, assemble]
  split_ifs <;> rfl

theorem isInf_eq_false (h : x.isFinite = true) : x.isInf = false := by
  change x.toModel.unpack.isInf = false
  rw [unpack_eq h, assemble]
  split_ifs <;> rfl

theorem abs_rational (h : x.isFinite = true) : |rational x| = magnitude x := by
  rw [rational, unpack_eq h, magnitude]
  have hpow : (0 : ℚ) < 2 ^ (binaryParts x).2 := zpow_pos two_pos _
  by_cases hzero : (binaryParts x).1 = 0
  · simp [assemble, hzero]
  · rw [assemble, dif_neg hzero]
    cases signOf x <;> simp [Sign.apply, abs_mul, abs_of_pos hpow]

/-! ## The double nearest to its own value -/

theorem Canonical.lastPlace_eq {n : ℕ} {t : ℤ} (h : Canonical n t) (hn : 0 < n) :
    lastPlace (n * 2 ^ t) = t := by
  have hlt : n.log2 < 53 := (Nat.log2_lt hn.ne').mpr h.lt
  have hfull : 52 ≤ n.log2 ∨ t = -1074 := h.full.imp_left (Nat.le_log2 hn.ne').mpr
  have hle := h.le
  rw [lastPlace, log_natCast_mul_zpow hn]
  omega

/-- Where nothing has to be rounded, the nearest double has the given mantissa and exponent. -/
theorem Canonical.nearest_eq {n : ℕ} {t : ℤ} (h : Canonical n t) :
    nearest (n * 2 ^ t) = min ((t + 1074).toNat * 2 ^ 52 + n) (2047 * 2 ^ 52) := by
  rcases Nat.eq_zero_or_pos n with rfl | hn
  · have ht : t = -1074 := h.full.resolve_left (by norm_num)
    simp [nearest, ht]
  · have hpow : (2 : ℚ) ^ t ≠ 0 := zpow_ne_zero _ two_ne_zero
    rw [nearest, if_neg (mul_ne_zero (Nat.cast_ne_zero.mpr hn.ne') hpow), h.lastPlace_eq hn,
      mul_div_cancel_right₀ _ hpow, nearestWhole_natCast]

/-- The double nearest to a double is the double itself. -/
theorem nearest_magnitude (h : x.isFinite = true) :
    nearest (magnitude x) = x.toBits.toNat % 2 ^ 63 := by
  have hfield := (isFinite_iff x).mp h
  rw [magnitude, (canonical_binaryParts x).nearest_eq, pattern_binaryParts]
  omega

theorem abs_assemble (sign : Sign) (n : ℕ) (t : ℤ) :
    (assemble sign n t).abs = assemble .positive n t := by
  rw [assemble, assemble]
  split_ifs <;> rfl

/-- Taking the magnitude clears the sign and nothing else. -/
theorem toNat_abs (h : x.isFinite = true) : x.abs.toBits.toNat = x.toBits.toNat % 2 ^ 63 := by
  have hfield := (isFinite_iff x).mp h
  change (UnpackedFloat.pack Format.binary64 x.toModel.unpack.abs).toNat = _
  rw [unpack_eq h, abs_assemble, (canonical_binaryParts x).toNat_pack, pattern_binaryParts]
  omega

theorem isFinite_abs (h : x.isFinite = true) : x.abs.isFinite = true := by
  have hfield := (isFinite_iff x).mp h
  rw [isFinite_iff, toNat_abs h]
  omega

theorem binaryParts_abs (h : x.isFinite = true) : binaryParts x.abs = binaryParts x := by
  have hfraction : x.toBits.toNat % 2 ^ 63 % 2 ^ 52 = x.toBits.toNat % 2 ^ 52 := by omega
  have hexponent :
      x.toBits.toNat % 2 ^ 63 / 2 ^ 52 % 2 ^ 11 = x.toBits.toNat / 2 ^ 52 % 2 ^ 11 := by
    omega
  rw [binaryParts_eq, binaryParts_eq, toNat_abs h, hfraction, hexponent]

theorem magnitude_eq_zero (h : x.toBits.toNat = 0) : magnitude x = 0 := by
  simp [magnitude, binaryParts_eq, h]

/-- The mantissa and the exponent are found again in the pattern. -/
theorem Canonical.binaryParts_eq {n : ℕ} {t : ℤ} (h : Canonical n t)
    (hx : x.toBits.toNat = (t + 1074).toNat * 2 ^ 52 + n)
    (hlt : (t + 1074).toNat * 2 ^ 52 + n < 2047 * 2 ^ 52) : binaryParts x = (n, t) := by
  obtain ⟨hn, ht, hfull⟩ := h
  rw [Double.binaryParts_eq]
  split_ifs with hfield <;> rw [Prod.mk.injEq] <;> omega

/-- A double nearest to a number is the number rounded to its last place. -/
theorem magnitude_of_nearest {v : ℚ} (hv : 0 < v) (hx : x.toBits.toNat = nearest v)
    (hfinite : x.isFinite = true) :
    magnitude x = nearestWhole (v / 2 ^ lastPlace v) * 2 ^ lastPlace v := by
  obtain ⟨n, t, hcanonical, -, hpattern, hvalue⟩ := exists_canonical
    (nearestWhole_lastPlace_le hv) (le_lastPlace v) (le_nearestWhole_lastPlace hv)
  have hfield := (isFinite_iff x).mp hfinite
  rw [nearest, if_neg hv.ne', ← hpattern] at hx
  have hparts : binaryParts x = (n, t) := hcanonical.binaryParts_eq (by omega) (by omega)
  rw [magnitude, hparts, hvalue]

/-- A number that needs no rounding is the value of the double nearest to it. -/
theorem magnitude_of_exact {v : ℚ} (hv : 0 < v) (hx : x.toBits.toNat = nearest v)
    (hfinite : x.isFinite = true) {n : ℕ} (hexact : v / 2 ^ lastPlace v = n) : magnitude x = v := by
  rw [magnitude_of_nearest hv hx hfinite, hexact, nearestWhole_natCast, ← hexact,
    div_mul_cancel₀ _ (zpow_ne_zero _ two_ne_zero)]

theorem natCast_div_zpow (n : ℕ) {t : ℤ} (ht : t ≤ 0) :
    (n : ℚ) / 2 ^ t = (n * 2 ^ t.natAbs : ℕ) := by
  rw [zpow_eq_inv_pow 2 ht, div_inv_eq_mul]
  push_cast
  rfl

/-- The double nearest to a whole number is a whole number. -/
theorem magnitude_of_nearest_natCast {n : ℕ} (hx : x.toBits.toNat = nearest n)
    (hfinite : x.isFinite = true) : ∃ k : ℕ, magnitude x = k := by
  rcases Nat.eq_zero_or_pos n with rfl | hn
  · rw [Nat.cast_zero, nearest_zero] at hx
    exact ⟨0, (magnitude_eq_zero hx).trans Nat.cast_zero.symm⟩
  have hpos : (0 : ℚ) < n := Nat.cast_pos.mpr hn
  rcases le_total (lastPlace n) 0 with hplace | hplace
  · exact ⟨n, magnitude_of_exact hpos hx hfinite (natCast_div_zpow n hplace)⟩
  · refine ⟨nearestWhole (n / 2 ^ lastPlace n) * 2 ^ (lastPlace n).natAbs, ?_⟩
    rw [magnitude_of_nearest hpos hx hfinite]
    push_cast
    rw [zpow_eq_pow 2 hplace]

end

/-! ## Exact and inexact results -/

/-- A number that is known exactly is shown if its digits reach down to its last place. -/
theorem ShownBy.of_exact {m : ℕ} {e : ℤ} {v : ℚ} (hm : 0 < m) (hv : v = m * 2 ^ e)
    (hfine : e ≤ lastPlace v) : ShownBy m e .exact v := by
  have hpow : (0 : ℚ) < 2 ^ e := zpow_pos two_pos e
  have hcancel : v / 2 ^ e = m := by rw [hv, mul_div_cancel_right₀ _ hpow.ne']
  refine ⟨?_, ?_, hfine, .inl hm⟩
  · rw [hv]
    exact mul_pos (Nat.cast_pos.mpr hm) hpow
  · rw [hcancel]
    constructor <;> simp [ExtendedMantissa.ofMantissaAndAccuracy]

/-- The bits beside a mantissa compare a fraction with one half. -/
theorem bits_accuracyOfFraction (m a b : ℕ) :
    ((ExtendedMantissa.ofMantissaAndAccuracy m (accuracyOfFraction a b)).roundBit = true ↔
      a ≠ 0 ∧ b ≤ 2 * a) ∧
    ((ExtendedMantissa.ofMantissaAndAccuracy m (accuracyOfFraction a b)).stickyBit = true ↔
      a ≠ 0 ∧ 2 * a ≠ b) := by
  by_cases hzero : a = 0
  · simp [accuracyOfFraction, ExtendedMantissa.ofMantissaAndAccuracy, hzero]
  · rw [accuracyOfFraction, if_neg hzero]
    rcases horder : compare (2 * a) b with _ | _ | _
    · have := Nat.compare_eq_lt.mp horder
      simp [ExtendedMantissa.ofMantissaAndAccuracy]
      omega
    · have := Nat.compare_eq_eq.mp horder
      simp [ExtendedMantissa.ofMantissaAndAccuracy]
      omega
    · have := Nat.compare_eq_gt.mp horder
      simp [ExtendedMantissa.ofMantissaAndAccuracy]
      omega

/-- The whole quotient and the comparison of the remainder with one half tell enough for rounding.
-/
theorem shows_quotient (a : ℕ) {b : ℕ} (hb : 0 < b) :
    Shows (.ofMantissaAndAccuracy (a / b) (accuracyOfFraction (a % b) b)) (a / b : ℚ) := by
  have hbpos : (0 : ℚ) < b := Nat.cast_pos.mpr hb
  have hlt : a % b < b := Nat.mod_lt a hb
  have hrest : (a / b : ℚ) - (a / b : ℕ) = (a % b : ℕ) / b := by
    have hdivision : ((b * (a / b) + a % b : ℕ) : ℚ) = a := congrArg Nat.cast (Nat.div_add_mod a b)
    push_cast at hdivision
    field_simp
    linarith
  have hlower : ((a / b : ℕ) : ℚ) ≤ a / b := Nat.cast_div_le
  have hupper : (a / b : ℚ) < (a / b : ℕ) + 1 := by
    have hone : ((a % b : ℕ) : ℚ) / b < 1 := (div_lt_one hbpos).mpr (Nat.cast_lt.mpr hlt)
    linarith
  have hhalf : 1 / 2 ≤ (a / b : ℚ) - (a / b : ℕ) ↔ b ≤ 2 * (a % b) := by
    rw [hrest, div_le_div_iff₀ two_pos hbpos, one_mul, mul_comm]
    norm_cast
  have hmiddle : (a / b : ℚ) - (a / b : ℕ) = 1 / 2 ↔ 2 * (a % b) = b := by
    rw [hrest, div_eq_div_iff hbpos.ne' two_ne_zero, one_mul, mul_comm]
    norm_cast
  have hnone : (a / b : ℚ) - (a / b : ℕ) = 0 ↔ a % b = 0 := by
    rw [hrest, div_eq_zero_iff, or_iff_left hbpos.ne', Nat.cast_eq_zero]
  obtain ⟨hround, hsticky⟩ := bits_accuracyOfFraction (a / b) (a % b) b
  refine ⟨?_, ?_, ?_, ?_⟩ <;> rw [mantissa_ofMantissaAndAccuracy]
  · exact hlower
  · exact hupper
  · rw [hhalf, hround]
    omega
  · exact hsticky.trans (and_congr hnone.not.symm hmiddle.not.symm)

/-! ## Products and quotients -/

theorem log_add_le {v w : ℚ} (hv : 0 < v) (hw : 0 < w) :
    Int.log 2 v + Int.log 2 w ≤ Int.log 2 (v * w) := by
  rw [le_log_iff (mul_pos hv hw), zpow_add₀ two_ne_zero]
  exact mul_le_mul (zpow_log_le hv) (zpow_log_le hw) (zpow_pos two_pos _).le hv.le

theorem log_sub_le {v w : ℚ} (hv : 0 < v) (hw : 0 < w) :
    Int.log 2 v - (Int.log 2 w + 1) ≤ Int.log 2 (v / w) := by
  rw [le_log_iff (div_pos hv hw), zpow_sub₀ two_ne_zero]
  exact div_le_div₀ hv.le (zpow_log_le hv) hw (lt_zpow_log hw).le

/-- A product of doubles has no more places than rounding can take in. -/
theorem Canonical.add_le_lastPlace {n₁ n₂ : ℕ} {t₁ t₂ : ℤ} (h₁ : Canonical n₁ t₁)
    (h₂ : Canonical n₂ t₂) (hn₁ : 0 < n₁) (hn₂ : 0 < n₂) :
    t₁ + t₂ ≤ lastPlace (n₁ * 2 ^ t₁ * (n₂ * 2 ^ t₂)) := by
  have hpos₁ : (0 : ℚ) < n₁ * 2 ^ t₁ := mul_pos (Nat.cast_pos.mpr hn₁) (zpow_pos two_pos t₁)
  have hpos₂ : (0 : ℚ) < n₂ * 2 ^ t₂ := mul_pos (Nat.cast_pos.mpr hn₂) (zpow_pos two_pos t₂)
  have hlog := log_add_le hpos₁ hpos₂
  have hplace₁ := h₁.lastPlace_eq hn₁
  have hplace₂ := h₂.lastPlace_eq hn₂
  rw [lastPlace, log_natCast_mul_zpow hn₁] at hplace₁
  rw [lastPlace, log_natCast_mul_zpow hn₂] at hplace₂
  rw [log_natCast_mul_zpow hn₁, log_natCast_mul_zpow hn₂] at hlog
  rw [lastPlace]
  omega

section

variable {m₁ m₂ : ℕ} {e₁ e₂ : ℤ}

/-- A product of positive numbers is rounded once. -/
theorem toNat_pack_mul (h₁ : 0 < m₁) (h₂ : 0 < m₂)
    (hfine : e₁ + e₂ ≤ lastPlace (m₁ * 2 ^ e₁ * (m₂ * 2 ^ e₂))) :
    (UnpackedFloat.pack Format.binary64 (mul Format.binary64
      (.finite .positive m₁ e₁ h₁) (.finite .positive m₂ e₂ h₂))).toNat =
      nearest (m₁ * 2 ^ e₁ * (m₂ * 2 ^ e₂)) := by
  refine (ShownBy.of_exact (Nat.mul_pos h₁ h₂) ?_ hfine).toNat_pack_round
  rw [zpow_add₀ two_ne_zero]
  push_cast
  ring

/-- A quotient is computed with enough places. -/
theorem shownBy_divCore (h₁ : 0 < m₁) (h₂ : 0 < m₂) {m : ℕ} {e : ℤ} {accuracy : Accuracy}
    (h : divCore Format.binary64 m₁ e₁ m₂ e₂ = (m, e, accuracy)) :
    ShownBy m e accuracy (m₁ * 2 ^ e₁ / (m₂ * 2 ^ e₂)) := by
  have hpos₁ : (0 : ℚ) < m₁ * 2 ^ e₁ := mul_pos (Nat.cast_pos.mpr h₁) (zpow_pos two_pos e₁)
  have hpos₂ : (0 : ℚ) < m₂ * 2 ^ e₂ := mul_pos (Nat.cast_pos.mpr h₂) (zpow_pos two_pos e₂)
  have hpos := div_pos hpos₁ hpos₂
  have hlog := log_sub_le hpos₁ hpos₂
  rw [log_natCast_mul_zpow h₁, log_natCast_mul_zpow h₂] at hlog
  have htarget : Format.binary64.targetExponent (totalExponent m₁ e₁ - totalExponent m₂ e₂) =
      max (m₁.log2 + e₁ - (m₂.log2 + e₂) - 53) (-1074) := by
    simp only [Format.targetExponent, totalExponent, Format.mantissaBits, Format.minExponent]
    norm_num
    omega
  rw [divCore, htarget] at h
  simp only [Prod.mk.injEq] at h
  obtain ⟨rfl, he, rfl⟩ := h
  rw [he]
  have hshift : (m₁ * 2 ^ e₁ / (m₂ * 2 ^ e₂) : ℚ) / 2 ^ e =
      ((m₁ <<< (e₁ - e₂ - e).toNat : ℕ) : ℚ) / m₂ := by
    have hexponent : e₁ = (e₁ - e₂ - e).toNat + e₂ + e := by omega
    rw [Nat.shiftLeft_eq]
    push_cast
    nth_rewrite 1 [hexponent]
    rw [zpow_add₀ two_ne_zero, zpow_add₀ two_ne_zero, zpow_natCast]
    field_simp
  have hfine : e ≤ lastPlace (m₁ * 2 ^ e₁ / (m₂ * 2 ^ e₂)) := by
    rw [lastPlace]
    omega
  have hshows := shows_quotient (m₁ <<< (e₁ - e₂ - e).toNat) h₂
  rw [← hshift] at hshows
  refine ⟨hpos, hshows, hfine, ?_⟩
  rcases Nat.eq_zero_or_pos (m₁ <<< (e₁ - e₂ - e).toNat / m₂) with hzero | hquotient
  -- A quotient without whole part lies below the last place, which is then that of zero.
  · have hupper := hshows.upper
    rw [mantissa_ofMantissaAndAccuracy, hzero, Nat.cast_zero, zero_add,
      div_lt_one (zpow_pos two_pos e)] at hupper
    have hbelow := (log_lt_iff hpos).mpr hupper
    rw [lastPlace] at hfine
    omega
  · exact .inl hquotient

/-- A quotient of positive numbers is rounded once. -/
theorem toNat_pack_div (h₁ : 0 < m₁) (h₂ : 0 < m₂) :
    (UnpackedFloat.pack Format.binary64 (div Format.binary64
      (.finite .positive m₁ e₁ h₁) (.finite .positive m₂ e₂ h₂))).toNat =
      nearest (m₁ * 2 ^ e₁ / (m₂ * 2 ^ e₂)) :=
  (shownBy_divCore h₁ h₂ rfl).toNat_pack_round

end

/-- A whole number is rounded once. -/
theorem toNat_pack_ofNat (n : ℕ) :
    (UnpackedFloat.pack Format.binary64 (UnpackedFloat.ofNat Format.binary64 n)).toNat =
      nearest n := by
  rcases Nat.eq_zero_or_pos n with rfl | hn
  · rw [Nat.cast_zero, nearest_zero]
    exact toNat_pack_zero
  · have horder : compare (n : ℤ) 0 = .gt := Int.compare_eq_gt.mpr (by omega)
    have hlog : Int.log 2 (n : ℚ) = n.log2 := by simpa using log_natCast_mul_zpow hn 0
    rw [UnpackedFloat.ofNat, UnpackedFloat.ofInt, UnpackedFloat.normalize, horder]
    simp only [Int.toNat_natCast, UnpackedFloat.round, targetExponent_eq, decreaseExponent,
      Nat.shiftLeft_eq, zero_sub]
    refine (ShownBy.of_exact (by positivity) ?_ ?_).toNat_pack_round
    · rw [zpow_neg, zpow_natCast]
      push_cast
      rw [mul_inv_cancel_right₀ (pow_ne_zero _ two_ne_zero)]
    · rw [lastPlace, hlog]
      omega

section

variable {x y : Float} (hx : x.isFinite = true) (hy : y.isFinite = true)
  (hxpos : x.toBits.toNat < 2 ^ 63) (hypos : y.toBits.toNat < 2 ^ 63)
include hx hy hxpos hypos

/-- Multiplying doubles is rounding the product of their values. -/
theorem toNat_mul : (x * y).toBits.toNat = nearest (magnitude x * magnitude y) := by
  change (UnpackedFloat.pack Format.binary64
    (mul Format.binary64 x.toModel.unpack y.toModel.unpack)).toNat = _
  rw [unpack_eq hx, unpack_eq hy, signOf, signOf, if_neg hxpos.not_ge, if_neg hypos.not_ge,
    magnitude, magnitude, assemble, assemble]
  split_ifs with hxzero hyzero hyzero
  · rw [hxzero, Nat.cast_zero, zero_mul, zero_mul, nearest_zero]
    exact toNat_pack_zero
  · rw [hxzero, Nat.cast_zero, zero_mul, zero_mul, nearest_zero]
    exact toNat_pack_zero
  · rw [hyzero, Nat.cast_zero, zero_mul, mul_zero, nearest_zero]
    exact toNat_pack_zero
  · exact toNat_pack_mul _ _ ((canonical_binaryParts x).add_le_lastPlace (canonical_binaryParts y)
      (Nat.pos_of_ne_zero hxzero) (Nat.pos_of_ne_zero hyzero))

/-- Dividing doubles is rounding the quotient of their values. -/
theorem toNat_div (hzero : magnitude y ≠ 0) :
    (x / y).toBits.toNat = nearest (magnitude x / magnitude y) := by
  have hyzero : (binaryParts y).1 ≠ 0 :=
    fun h ↦ hzero (by rw [magnitude, h, Nat.cast_zero, zero_mul])
  change (UnpackedFloat.pack Format.binary64
    (div Format.binary64 x.toModel.unpack y.toModel.unpack)).toNat = _
  rw [unpack_eq hx, unpack_eq hy, signOf, signOf, if_neg hxpos.not_ge, if_neg hypos.not_ge,
    magnitude, magnitude, assemble, assemble, dif_neg hyzero]
  split_ifs with hxzero
  · rw [hxzero, Nat.cast_zero, zero_mul, zero_div, nearest_zero]
    exact toNat_pack_zero
  · exact toNat_pack_div _ _

end

end Lox.Double
