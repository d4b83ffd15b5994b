import Lox.Proofs.Decimal.Nearness
import Lox.Proofs.Decimal.Shortest

/-!
# The fewest digits

Whatever decimal is read as a double, one of the two candidates of as many digits lies between it
and the exact value.  As rounding keeps the order, that candidate is read as the double too.  So no
decimal with fewer digits than the search finds is read as the double.  Seventeen digits are always
enough.
-/

namespace Lox.Decimal

open Double

structure IsShortest (d : Decimal) (x : Float) : Prop where
  reads : d.toFloat = x
  fewest : ∀ d' : Decimal, d'.toFloat = x → d.digits.length ≤ d'.digits.length

/-! ## Lengths -/

theorem lt_pow_length (d : Decimal) : d.coefficient < 10 ^ d.digits.length :=
  (Nat.length_toDigits_le_iff (by norm_num) Nat.length_toDigits_pos).mp le_rfl

theorem pow_length_le {d : Decimal} (hd : d.coefficient ≠ 0) :
    10 ^ (d.digits.length - 1) ≤ d.coefficient := by
  rcases Nat.eq_zero_or_pos (d.digits.length - 1) with hone | hmore
  · rw [hone]
    exact Nat.one_le_iff_ne_zero.mpr hd
  · by_contra hlt
    have hle := (Nat.length_toDigits_le_iff (by norm_num) hmore).mpr (not_le.mp hlt)
    rw [← digits] at hle
    omega

/-- A number below a power of ten has no more digits than the power tells. -/
theorem length_digits_le {d : Decimal} {k : ℕ} (hk : 0 < k) (h : d.coefficient < 10 ^ k) :
    d.digits.length ≤ k :=
  (Nat.length_toDigits_le_iff (by norm_num) hk).mpr h

section

variable (d : Decimal) {surplus : ℕ} (h : surplus < d.digits.length)
include h

theorem div_pow_lt : d.coefficient / 10 ^ surplus < 10 ^ (d.digits.length - surplus) := by
  rw [Nat.div_lt_iff_lt_mul (Nat.pow_pos (by norm_num)), ← pow_add, Nat.sub_add_cancel h.le]
  exact d.lt_pow_length

theorem length_below_le : (d.below surplus).digits.length ≤ d.digits.length - surplus :=
  length_digits_le (by omega) (d.div_pow_lt h)

theorem length_above_le :
    (d.above d.digits.length surplus).digits.length ≤ d.digits.length - surplus := by
  rw [above]
  split_ifs with hcarry
  · exact length_digits_le (by omega) (Nat.one_lt_pow (by omega) (by norm_num))
  · exact length_digits_le (by omega) (lt_of_le_of_ne (d.div_pow_lt h) hcarry)

end

/-! ## Values -/

/-- The multiples of a power of ten up to a decimal. -/
theorem natCast_mul_le_value_iff (d : Decimal) (k surplus : ℕ) :
    (k : ℚ) * 10 ^ (d.exponent + surplus) ≤ d.value ↔ k ≤ d.coefficient / 10 ^ surplus := by
  have hpow : (0 : ℚ) < 10 ^ d.exponent := zpow_pos (by norm_num) _
  rw [Nat.le_div_iff_mul_le (Nat.pow_pos (by norm_num)), value, add_comm, zpow_add₀ (by norm_num),
    zpow_natCast, ← mul_assoc, mul_le_mul_iff_left₀ hpow]
  norm_cast

theorem value_below (d : Decimal) (surplus : ℕ) :
    (d.below surplus).value = (d.coefficient / 10 ^ surplus : ℕ) * 10 ^ (d.exponent + surplus) :=
  rfl

/-- Adding one to the digits that are left gives the next number with that many places, also where a
carry opens a new one. -/
theorem value_above (d : Decimal) {size surplus : ℕ} (h : surplus ≤ size) :
    (d.above size surplus).value =
      (d.coefficient / 10 ^ surplus + 1 : ℕ) * 10 ^ (d.exponent + surplus) := by
  rw [above]
  split_ifs with hcarry
  · rw [hcarry, value]
    push_cast
    rw [one_mul, ← zpow_natCast, ← zpow_add₀ (by norm_num)]
    congr 1
    push_cast [h]
    ring
  · rfl

theorem below_le (d : Decimal) (surplus : ℕ) : (d.below surplus).value ≤ d.value :=
  (d.natCast_mul_le_value_iff _ _).mpr le_rfl

theorem lt_above (d : Decimal) {size surplus : ℕ} (h : surplus ≤ size) :
    d.value < (d.above size surplus).value := by
  rw [value_above d h, ← not_le, natCast_mul_le_value_iff]
  omega

theorem value_le_zpow (d : Decimal) : d.value ≤ 10 ^ (d.digits.length + d.exponent) := by
  rw [value, zpow_add₀ (by norm_num), zpow_natCast]
  gcongr
  exact_mod_cast d.lt_pow_length.le

/-- Rounding down keeps the first digit in its place. -/
theorem zpow_le_value_below {d : Decimal} (hd : d.coefficient ≠ 0) {surplus : ℕ}
    (h : surplus < d.digits.length) :
    (10 : ℚ) ^ ((d.digits.length - 1 : ℕ) + d.exponent) ≤ (d.below surplus).value := by
  have hquotient : 10 ^ (d.digits.length - 1 - surplus) ≤ d.coefficient / 10 ^ surplus := by
    rw [Nat.le_div_iff_mul_le (Nat.pow_pos (by norm_num)), ← pow_add,
      Nat.sub_add_cancel (by omega)]
    exact pow_length_le hd
  calc (10 : ℚ) ^ ((d.digits.length - 1 : ℕ) + d.exponent)
      = (10 ^ (d.digits.length - 1 - surplus) : ℕ) * 10 ^ (d.exponent + surplus) := by
        push_cast
        rw [← zpow_natCast, ← zpow_add₀ (by norm_num)]
        congr 1
        omega
    _ ≤ (d.below surplus).value := by
        rw [value_below]
        gcongr

/-- No decimal of few digits lies strictly between the candidates. -/
theorem value_le_below_or_above_le {d d' : Decimal} (hd : d.coefficient ≠ 0) {surplus : ℕ}
    (hlength : d'.digits.length + surplus = d.digits.length) :
    d'.value ≤ (d.below surplus).value ∨ (d.above d.digits.length surplus).value ≤ d'.value := by
  have hpow : (0 : ℚ) < 10 ^ (d.exponent + surplus) := zpow_pos (by norm_num) _
  rcases le_or_gt (d.exponent + surplus) d'.exponent with hcoarse | hfine
  -- Both candidates and the decimal are multiples of the same power of ten.
  · obtain ⟨k, hk⟩ := Int.eq_ofNat_of_zero_le (sub_nonneg.mpr hcoarse)
    have hvalue : d'.value = (d'.coefficient * 10 ^ k : ℕ) * 10 ^ (d.exponent + surplus) := by
      rw [value, eq_add_of_sub_eq hk, zpow_add₀ (by norm_num)]
      push_cast
      rw [zpow_natCast, mul_assoc]
    rw [hvalue, value_below, value_above d (by omega)]
    rcases Nat.lt_or_ge (d.coefficient / 10 ^ surplus) (d'.coefficient * 10 ^ k) with hlt | hge
    · right
      gcongr
      exact hlt
    · left
      gcongr
  -- A finer power of ten leaves the decimal below the first place of the other.
  · left
    have hshort : 0 < d'.digits.length := Nat.length_toDigits_pos
    calc d'.value ≤ 10 ^ (d'.digits.length + d'.exponent) := d'.value_le_zpow
      _ ≤ 10 ^ ((d.digits.length - 1 : ℕ) + d.exponent) :=
          zpow_le_zpow_right₀ (by norm_num) (by omega)
      _ ≤ (d.below surplus).value := zpow_le_value_below hd (by omega)

/-! ## Distances -/

/-- What is dropped when digits are left off. -/
theorem value_sub_below (d : Decimal) (surplus : ℕ) :
    d.value - (d.below surplus).value = (d.coefficient % 10 ^ surplus : ℕ) * 10 ^ d.exponent := by
  have hdivision :
      ((10 ^ surplus * (d.coefficient / 10 ^ surplus) + d.coefficient % 10 ^ surplus : ℕ) : ℚ) =
        d.coefficient := congrArg Nat.cast (Nat.div_add_mod _ _)
  rw [value_below, value, zpow_add₀ (by norm_num), zpow_natCast, ← hdivision]
  push_cast
  ring

/-- What is missing up to the next number with fewer digits. -/
theorem value_above_sub (d : Decimal) {size surplus : ℕ} (h : surplus ≤ size) :
    (d.above size surplus).value - d.value =
      (10 ^ surplus - d.coefficient % 10 ^ surplus : ℕ) * 10 ^ d.exponent := by
  have hlt : d.coefficient % 10 ^ surplus < 10 ^ surplus := Nat.mod_lt _ (Nat.pow_pos (by norm_num))
  have hbelow := value_sub_below d surplus
  rw [value_below, zpow_add₀ (by norm_num), zpow_natCast] at hbelow
  rw [value_above d h, zpow_add₀ (by norm_num), zpow_natCast, Nat.cast_sub hlt.le]
  push_cast at hbelow ⊢
  linear_combination -hbelow

/-- The distance to the next double, counted in units of the last decimal place. -/
theorem spacing_mul (x : Float) :
    (spacing x : ℚ) * 10 ^ (exact x).exponent = 2 ^ (binaryParts x).2 := by
  by_cases hnonneg : 0 ≤ (binaryParts x).2
  · have hspacing : spacing x = 2 ^ (binaryParts x).2.natAbs := if_pos hnonneg
    rw [hspacing, exact_of_nonneg hnonneg, zpow_eq_pow 2 hnonneg]
    simp
  · have hspacing : spacing x = 5 ^ (binaryParts x).2.natAbs := if_neg hnonneg
    have hneg := (not_le.mp hnonneg).le
    rw [hspacing, exact_of_neg hnonneg, zpow_eq_inv_pow 2 hneg, zpow_eq_inv_pow 10 hneg, ten_pow]
    push_cast
    field_simp

/-! ## Minimality -/

theorem value_nonneg (d : Decimal) : 0 ≤ d.value :=
  mul_nonneg (Nat.cast_nonneg _) (zpow_pos (by norm_num) _).le

/-- What lies between two decimals that are read alike is read as they are. -/
theorem toFloat_of_between {x : Float} {d₁ d d₂ : Decimal}
    (h₁ : d₁.toFloat = x) (h₂ : d₂.toFloat = x)
    (hle₁ : d₁.value ≤ d.value) (hle₂ : d.value ≤ d₂.value) : d.toFloat = x := by
  have hlower := nearest_mono d₁.value_nonneg hle₁
  have hupper := nearest_mono d.value_nonneg hle₂
  rw [← toNat_toFloat, ← toNat_toFloat, h₁] at hlower
  rw [← toNat_toFloat, ← toNat_toFloat, h₂] at hupper
  exact eq_of_toNat (le_antisymm hupper hlower)

/-- A rounding that lacks so many digits has at most the digits that are left. -/
theorem length_of_mem_roundings {d d' : Decimal} {slack surplus : ℕ} (h : surplus < d.digits.length)
    (hmem : d' ∈ d.roundings d.digits.length slack surplus) :
    d'.digits.length ≤ d.digits.length - surplus := by
  rcases mem_roundings_iff.mp hmem with ⟨rfl, rfl⟩ | ⟨-, ⟨-, rfl⟩ | ⟨-, rfl⟩⟩
  · exact le_rfl
  · exact d.length_below_le h
  · exact d.length_above_le h

theorem coefficient_exact_ne_zero {x : Float} (h : 0 < magnitude x) :
    (exact x).coefficient ≠ 0 := by
  intro hzero
  rw [← value_exact, value, hzero, Nat.cast_zero, zero_mul] at h
  exact lt_irrefl 0 h

section

variable {x : Float} (hfinite : x.isFinite = true) (hsign : x.toBits.toNat < 2 ^ 63)
include hfinite hsign

/-- Every digit of a double together is read as the double. -/
theorem toFloat_exact : (exact x).toFloat = x :=
  toFloat_of_magnitude hfinite hsign (value_exact x)

/-- If any decimal of few digits is read as the double, a candidate of as many digits is. -/
theorem exists_mem_roundings (hx : 0 < magnitude x) {d : Decimal} (hd : d.toFloat = x) {surplus : ℕ}
    (hsurplus : surplus ≠ 0) (hlength : d.digits.length + surplus = (exact x).digits.length) :
    ∃ d' ∈ (exact x).roundings (exact x).digits.length (spacing x) surplus,
      readsAs x d' = true := by
  have hexact := toFloat_exact hfinite hsign
  have hpow : (0 : ℚ) < 10 ^ (exact x).exponent := zpow_pos (by norm_num) _
  have hdistance : |(exact x).value - d.value| ≤ spacing x * 10 ^ (exact x).exponent := by
    have hbits := hd ▸ toNat_toFloat d
    have hpos : 0 < d.value := by
      refine d.value_nonneg.lt_of_ne fun hzero ↦ hx.ne' (magnitude_eq_zero ?_)
      rw [hbits, ← hzero, nearest_zero]
    rw [spacing_mul, value_exact]
    exact abs_magnitude_sub_le hpos hbits hfinite
  rcases value_le_below_or_above_le (coefficient_exact_ne_zero hx) hlength with hle | hle
  · have hbelow := (exact x).below_le surplus
    refine ⟨(exact x).below surplus, mem_roundings_iff.mpr (.inr ⟨hsurplus, .inl ⟨?_, rfl⟩⟩),
      readsAs_iff.mpr (toFloat_of_between hd hexact hle hbelow)⟩
    have hsub := value_sub_below (exact x) surplus
    have hslack : (((exact x).coefficient % 10 ^ surplus : ℕ) : ℚ) * 10 ^ (exact x).exponent ≤
        spacing x * 10 ^ (exact x).exponent := by
      linarith [le_abs_self ((exact x).value - d.value)]
    exact_mod_cast (mul_le_mul_iff_left₀ hpow).mp hslack
  · have habove := (exact x).lt_above (show surplus ≤ (exact x).digits.length by omega)
    refine ⟨(exact x).above (exact x).digits.length surplus,
      mem_roundings_iff.mpr (.inr ⟨hsurplus, .inr ⟨?_, rfl⟩⟩),
      readsAs_iff.mpr (toFloat_of_between hexact hd habove.le hle)⟩
    have hsub := value_above_sub (exact x) (show surplus ≤ (exact x).digits.length by omega)
    have hslack : ((10 ^ surplus - (exact x).coefficient % 10 ^ surplus : ℕ) : ℚ) *
        10 ^ (exact x).exponent ≤ spacing x * 10 ^ (exact x).exponent := by
      linarith [neg_abs_le ((exact x).value - d.value)]
    exact_mod_cast (mul_le_mul_iff_left₀ hpow).mp hslack

/-- No decimal with fewer digits is read as the double. -/
theorem length_shortest_le {d : Decimal} (hd : d.toFloat = x) :
    (shortest x).digits.length ≤ d.digits.length := by
  have hlength : 0 < d.digits.length := Nat.length_toDigits_pos
  rcases (magnitude_nonneg x).eq_or_lt with hzero | hpos
  · rw [digits, coefficient_shortest_of_zero hfinite hsign hzero.symm, Nat.toDigits_zero]
    exact hlength
  obtain ⟨surplus, hsurplus, hmem, -, hmore⟩ := exists_surplus hfinite hsign
  have hle := length_of_mem_roundings hsurplus hmem
  by_contra hlt
  -- Otherwise a candidate that has lost more digits would have been found first.
  obtain ⟨k, hk⟩ :=
    Nat.exists_eq_add_of_le (show d.digits.length ≤ (exact x).digits.length by omega)
  obtain ⟨d', hmem', hreads⟩ :=
    exists_mem_roundings hfinite hsign hpos hd (by omega) hk.symm
  have hunread := hmore k (by omega) (by omega) d' hmem'
  exact absurd hreads (Bool.not_eq_true _ ▸ hunread)

/-- A decimal that agrees with a double in sixteen places is read as it. -/
theorem toFloat_of_close (hx : 0 < magnitude x) {d : Decimal}
    (h : |d.value - (exact x).value| * (2 * 10 ^ 16) ≤ (exact x).value) : d.toFloat = x := by
  rw [value_exact] at h
  have hclose : |d.value - magnitude x| < magnitude x / 2 ^ 54 := by
    rw [lt_div_iff₀ (by positivity)]
    linarith [abs_nonneg (d.value - magnitude x)]
  have hnearest := (canonical_binaryParts x).nearest_eq_of_close (mantissa_pos hx) hclose
  refine eq_of_toNat ?_
  rw [toNat_toFloat, hnearest, ← magnitude, nearest_magnitude hfinite, Nat.mod_eq_of_lt hsign]

/-- Seventeen digits are enough. -/
theorem length_shortest_le_seventeen : (shortest x).digits.length ≤ 17 := by
  rcases (magnitude_nonneg x).eq_or_lt with hzero | hpos
  · rw [digits, coefficient_shortest_of_zero hfinite hsign hzero.symm, Nat.toDigits_zero]
    norm_num
  rcases le_or_gt (exact x).digits.length 17 with hfew | hmany
  · exact (length_shortest_le hfinite hsign (toFloat_exact hfinite hsign)).trans hfew
  obtain ⟨surplus, hsize⟩ := Nat.exists_eq_add_of_le hmany.le
  have hlarge : 10 ^ 16 * 10 ^ surplus ≤ (exact x).coefficient := by
    have hle := pow_length_le (coefficient_exact_ne_zero hpos)
    rwa [hsize, show 17 + surplus - 1 = 16 + surplus by omega, pow_add] at hle
  have hhalf (a : ℕ) (ha : 2 * a ≤ 10 ^ surplus) :
      |a * (10 : ℚ) ^ (exact x).exponent| * (2 * 10 ^ 16) ≤ (exact x).value := by
    have hmul : 10 ^ 16 * (2 * a) ≤ (exact x).coefficient := (Nat.mul_le_mul_left _ ha).trans hlarge
    rw [abs_of_nonneg (by positivity)]
    calc a * (10 : ℚ) ^ (exact x).exponent * (2 * 10 ^ 16)
        = (10 ^ 16 * (2 * a) : ℕ) * 10 ^ (exact x).exponent := by
          push_cast
          ring
      _ ≤ (exact x).value := by
          rw [value]
          gcongr
  -- The nearer candidate of seventeen digits is near enough.
  rcases le_or_gt (2 * ((exact x).coefficient % 10 ^ surplus)) (10 ^ surplus) with hdown | hup
  · have hbelow : ((exact x).below surplus).toFloat = x := by
      refine toFloat_of_close hfinite hsign hpos ?_
      rw [abs_sub_comm, value_sub_below]
      exact hhalf _ hdown
    have hle := (exact x).length_below_le (show surplus < _ by omega)
    exact (length_shortest_le hfinite hsign hbelow).trans (by omega)
  · have habove : ((exact x).above (exact x).digits.length surplus).toFloat = x := by
      refine toFloat_of_close hfinite hsign hpos ?_
      rw [value_above_sub _ (by omega)]
      exact hhalf _ (by omega)
    have hle := (exact x).length_above_le (show surplus < _ by omega)
    exact (length_shortest_le hfinite hsign habove).trans (by omega)

/-- Candidates are tried from the fewest digits on, so the first that is read back has the fewest.
-/
theorem isShortest_shortest : (shortest x).IsShortest x :=
  ⟨toFloat_shortest hfinite hsign, fun _ ↦ length_shortest_le hfinite hsign⟩

end

end Lox.Decimal
