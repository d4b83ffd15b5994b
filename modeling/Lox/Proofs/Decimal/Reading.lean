import Lox.Proofs.Decimal.Pattern

/-!
# Decimals are read as the nearest double

A short coefficient and a small power of ten are doubles themselves, and one operation rounds their
product or quotient.  All other decimals are rounded in whole numbers, except for those that are far
too large or far too small.  Whichever way is taken, the result is the double nearest to the
decimal.
-/

namespace Lox.Decimal

open Float.Model Float.Model.UnpackedFloat Double

def value (d : Decimal) : ℚ :=
  d.coefficient * 10 ^ d.exponent

/-! ## Decimals out of range -/

/-- Beyond the doubles lies infinity. -/
theorem nearest_of_le {v : ℚ} (h : (2 : ℚ) ^ (1024 : ℤ) ≤ v) : nearest v = 2047 * 2 ^ 52 := by
  have hpos : 0 < v := (zpow_pos two_pos _).trans_le h
  have hlog : 1024 ≤ Int.log 2 v := (le_log_iff hpos).mpr h
  have hplace : lastPlace v = Int.log 2 v - 52 := max_eq_left (by omega)
  have hfull := (le_nearestWhole_lastPlace hpos).resolve_right (by omega)
  rw [nearest, if_neg hpos.ne']
  omega

/-- What is less than half of the smallest double is zero. -/
theorem nearest_of_lt {v : ℚ} (hpos : 0 < v) (h : v < 2 ^ (-1074 - 1 : ℤ)) : nearest v = 0 := by
  rw [zpow_sub_one₀ two_ne_zero, inv_eq_one_div, mul_comm] at h
  have hhalf : v / 2 ^ (-1074 : ℤ) < 1 / 2 := (div_lt_iff₀ (zpow_pos two_pos _)).mpr h
  have hone : v / 2 ^ (-1074 : ℤ) < 1 := hhalf.trans one_half_lt_one
  have hplace : lastPlace v = -1074 :=
    lastPlace_of_lt hpos ((div_lt_one (zpow_pos two_pos _)).mp hone)
  rw [nearest, if_neg hpos.ne', hplace, nearestWhole, Nat.floor_eq_zero.mpr hone, Nat.cast_zero,
    sub_zero, if_pos hhalf]
  rfl

section

variable {m : ℕ} {e : ℤ}

/-- So it is for powers of ten that are out of range, whatever their coefficient. -/
theorem nearest_of_large (hm : 0 < m) (he : 2 ^ 11 < e) : nearest (m * 10 ^ e) = 2047 * 2 ^ 52 := by
  apply nearest_of_le
  calc (2 : ℚ) ^ (1024 : ℤ) ≤ 2 ^ e := zpow_le_zpow_right₀ one_le_two (by omega)
    _ ≤ 10 ^ e := zpow_le_zpow_left₀ (by omega) (by norm_num) (by norm_num)
    _ ≤ m * 10 ^ e := le_mul_of_one_le_left (by positivity) (Nat.one_le_cast.mpr hm)

/-- So it is for negative powers that no coefficient of that size makes up for. -/
theorem nearest_of_tiny (hm : 0 < m) (he : e < -(2 ^ 11 + m.log2)) : nearest (m * 10 ^ e) = 0 := by
  apply nearest_of_lt (by positivity)
  have hlog : (m : ℚ) < 2 ^ (m.log2 + 1 : ℤ) := by exact_mod_cast Nat.lt_log2_self
  have hten : (10 : ℚ) ^ e ≤ 2 ^ e := by
    rw [← neg_neg e, zpow_neg, zpow_neg _ (-e)]
    exact inv_anti₀ (zpow_pos two_pos _)
      (zpow_le_zpow_left₀ (by omega) (by norm_num) (by norm_num))
  calc (m : ℚ) * 10 ^ e < 2 ^ (m.log2 + 1 : ℤ) * 2 ^ e :=
        mul_lt_mul hlog hten (zpow_pos (by norm_num) _) (zpow_pos two_pos _).le
    _ = 2 ^ (m.log2 + 1 + e) := (zpow_add₀ two_ne_zero _ _).symm
    _ ≤ 2 ^ (-1074 - 1 : ℤ) := zpow_le_zpow_right₀ one_le_two (by omega)

/-- Reading a decimal is rounding once, out of range as well as within. -/
theorem toNat_pack_ofScientific (m : ℕ) (e : ℤ) :
    (UnpackedFloat.pack Format.binary64 (UnpackedFloat.ofScientific Format.binary64 m e)).toNat =
      nearest (m * 10 ^ e) := by
  rw [UnpackedFloat.ofScientific]
  split_ifs with hzero hlarge htiny hnonneg
  · rw [hzero, Nat.cast_zero, zero_mul, nearest_zero]
    exact toNat_pack_zero
  · rw [nearest_of_large (Nat.pos_of_ne_zero hzero) hlarge]
    exact toNat_packComponents _ _
  · rw [nearest_of_tiny (Nat.pos_of_ne_zero hzero) htiny]
    exact toNat_pack_zero
  · have hvalue : ((m <<< 53 : ℕ) * 2 ^ (-53 : ℤ) * ((10 ^ e.toNat : ℕ) * 2 ^ (0 : ℤ)) : ℚ) =
        m * 10 ^ e := by
      lift e to ℕ using hnonneg
      rw [Nat.shiftLeft_eq, Int.toNat_natCast]
      push_cast
      rw [zpow_natCast]
      ring
    have hone : (1 : ℚ) ≤ m * 10 ^ e := one_le_mul_of_one_le_of_one_le
      (Nat.one_le_cast.mpr (Nat.pos_of_ne_zero hzero)) (one_le_zpow₀ (by norm_num) hnonneg)
    have hlog : 0 ≤ Int.log 2 ((m : ℚ) * 10 ^ e) :=
      (le_log_iff (zero_lt_one.trans_le hone)).mpr (by rwa [zpow_zero])
    refine (toNat_pack_mul _ _ ?_).trans (congrArg nearest hvalue)
    refine le_of_le_of_eq ?_ (congrArg lastPlace hvalue).symm
    change (-53 : ℤ) + 0 ≤ max (Int.log 2 ((m : ℚ) * 10 ^ e) - 52) (-1074)
    omega
  · have hvalue : ((m : ℚ) * 2 ^ (0 : ℤ)) / ((10 ^ (-e).toNat : ℕ) * 2 ^ (0 : ℤ)) = m * 10 ^ e := by
      have hexponent : e = -((-e).toNat : ℤ) := by omega
      nth_rewrite 2 [hexponent]
      rw [zpow_neg, zpow_natCast]
      push_cast
      ring
    exact (toNat_pack_div _ _).trans (congrArg nearest hvalue)

end

/-! ## Short decimals -/

/-- Whole numbers of no more places than doubles have are doubles. -/
theorem toFloat_toUInt64 {m : ℕ} (hm : m < 2 ^ 53) :
    m.toUInt64.toFloat.isFinite = true ∧ m.toUInt64.toFloat.toBits.toNat < 2 ^ 63 ∧
      magnitude m.toUInt64.toFloat = m := by
  have hbits : m.toUInt64.toFloat.toBits.toNat = nearest m := by
    have hcast : m.toUInt64.toNat = m := by
      simp
      omega
    change (UnpackedFloat.pack Format.binary64
      (UnpackedFloat.ofNat Format.binary64 m.toUInt64.toNat)).toNat = _
    rw [toNat_pack_ofNat, hcast]
  rcases Nat.eq_zero_or_pos m with rfl | hpos
  · rw [Nat.cast_zero, nearest_zero] at hbits
    rw [isFinite_iff, magnitude_eq_zero hbits, hbits]
    simp
  have hmpos : (0 : ℚ) < m := Nat.cast_pos.mpr hpos
  have hplace : lastPlace m ≤ 0 := by
    have hlog : Int.log 2 (m : ℚ) < 53 := (log_lt_iff hmpos).mpr (by exact_mod_cast hm)
    rw [lastPlace]
    omega
  have hle := nearestWhole_lastPlace_le hmpos
  have hsmall : m.toUInt64.toFloat.toBits.toNat < 2047 * 2 ^ 52 := by
    rw [hbits, nearest, if_neg hmpos.ne']
    omega
  have hfinite : m.toUInt64.toFloat.isFinite = true := by
    rw [isFinite_iff]
    omega
  exact ⟨hfinite, by omega, magnitude_of_exact hmpos hbits hfinite (natCast_div_zpow m hplace)⟩

/-- The table of powers of ten is exact. -/
theorem powersOfTen_exact (e : Fin 23) :
    (Float.exactlyRepresentablePowersOfTen[e]).isFinite = true ∧
      (Float.exactlyRepresentablePowersOfTen[e]).toBits.toNat < 2 ^ 63 ∧
      magnitude (Float.exactlyRepresentablePowersOfTen[e]) = 10 ^ (e : ℕ) := by
  have htable : ∀ e : Fin 23, (Float.exactlyRepresentablePowersOfTen[e]).isFinite = true ∧
      (Float.exactlyRepresentablePowersOfTen[e]).toBits.toNat < 2 ^ 63 ∧
      (binaryParts (Float.exactlyRepresentablePowersOfTen[e])).1 *
        2 ^ (binaryParts (Float.exactlyRepresentablePowersOfTen[e])).2.toNat =
      10 ^ (e : ℕ) * 2 ^ (-(binaryParts (Float.exactlyRepresentablePowersOfTen[e])).2).toNat := by
    decide +kernel
  obtain ⟨hfinite, hsign, hparts⟩ := htable e
  refine ⟨hfinite, hsign, ?_⟩
  rw [magnitude]
  generalize binaryParts (Float.exactlyRepresentablePowersOfTen[e]) = parts at hparts
  have hexponent : parts.2 = parts.2.toNat - (-parts.2).toNat := by omega
  rw [hexponent, zpow_sub₀ two_ne_zero, zpow_natCast, zpow_natCast, ← mul_div_assoc,
    div_eq_iff (pow_ne_zero _ two_ne_zero)]
  exact_mod_cast hparts

/-- Every decimal is read as the double nearest to it. -/
theorem toNat_toFloat (d : Decimal) : d.toFloat.toBits.toNat = nearest d.value := by
  rw [toFloat, Float.ofScientific, value]
  split_ifs with hshort hneg hneg
  · obtain ⟨hxfinite, hxsign, hx⟩ := toFloat_toUInt64 hshort.1
    obtain ⟨hyfinite, hysign, hy⟩ := powersOfTen_exact ⟨d.exponent.natAbs, by omega⟩
    have hnonzero : (10 : ℚ) ^ d.exponent.natAbs ≠ 0 := by positivity
    refine (toNat_div hxfinite hyfinite hxsign hysign (hy.trans_ne hnonzero)).trans ?_
    rw [hx, hy, zpow_eq_inv_pow 10 (of_decide_eq_true hneg).le, div_eq_mul_inv]
  · obtain ⟨hxfinite, hxsign, hx⟩ := toFloat_toUInt64 hshort.1
    obtain ⟨hyfinite, hysign, hy⟩ := powersOfTen_exact ⟨d.exponent.natAbs, by omega⟩
    refine (toNat_mul hxfinite hyfinite hxsign hysign).trans ?_
    rw [hx, hy, zpow_eq_pow 10 (not_lt.mp (hneg ∘ decide_eq_true))]
  · have hexponent : Int.negOfNat d.exponent.natAbs = d.exponent := by
      rw [Int.negOfNat_eq, Int.ofNat_eq_natCast,
        Int.ofNat_natAbs_of_nonpos (of_decide_eq_true hneg).le, neg_neg]
    rw [hexponent]
    exact toNat_pack_ofScientific _ _
  · have hexponent : Int.ofNat d.exponent.natAbs = d.exponent :=
      Int.natAbs_of_nonneg (not_lt.mp (hneg ∘ decide_eq_true))
    rw [hexponent]
    exact toNat_pack_ofScientific _ _

/-- A decimal is read as a finite double, or as infinity if it is too large. -/
theorem isFinite_or_eq_infinity (d : Decimal) :
    d.toFloat.isFinite = true ∨ d.toFloat = Float.ofBits 0x7FF0000000000000 := by
  have hle : d.toFloat.toBits.toNat ≤ 2047 * 2 ^ 52 := by
    rw [toNat_toFloat]
    exact nearest_le _
  by_cases hfield : d.toFloat.toBits.toNat / 2 ^ 52 % 2 ^ 11 = 2047
  · have hinfinity : (Float.ofBits 0x7FF0000000000000).toBits.toNat = 2047 * 2 ^ 52 := by
      decide +kernel
    exact .inr (eq_of_toNat (by omega))
  · exact .inl ((isFinite_iff _).mpr hfield)

end Lox.Decimal
