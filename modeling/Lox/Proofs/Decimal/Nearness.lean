import Lox.Proofs.Decimal.Pattern

/-!
# Rounding and order

Rounding keeps the order of numbers, and a number is never further from the double it is rounded to
than the next double is.  Conversely, a number that differs from a double in no more than its
sixteenth decimal place is rounded to it.
-/

namespace Lox.Double

open Decimal (binaryParts)

/-! ## Order -/

/-- Rounding to whole numbers keeps the order. -/
theorem nearestWhole_mono {r s : ℚ} (h : r ≤ s) : nearestWhole r ≤ nearestWhole s := by
  rcases (Nat.floor_mono h).lt_or_eq with hlt | heq
  · exact (nearestWhole_le r).trans (Nat.le_trans hlt (floor_le_nearestWhole s))
  rw [nearestWhole, nearestWhole, heq]
  by_cases hless : r - ⌊s⌋₊ < 1 / 2
  · rw [if_pos hless]
    split_ifs <;> omega
  have hless' : ¬s - ⌊s⌋₊ < 1 / 2 := fun hs ↦ hless (by linarith)
  rw [if_neg hless, if_neg hless']
  by_cases hhalf : r - ⌊s⌋₊ = 1 / 2
  · rw [if_pos hhalf]
    split_ifs <;> omega
  · have hmore : 1 / 2 < r - ⌊s⌋₊ := lt_of_le_of_ne (not_lt.mp hless) (Ne.symm hhalf)
    have hhalf' : ¬s - ⌊s⌋₊ = 1 / 2 := fun hs ↦ by linarith
    rw [if_neg hhalf, if_neg hhalf']

/-- Doubles do not lie closer to each other further away from zero. -/
theorem lastPlace_mono {v w : ℚ} (hv : 0 < v) (h : v ≤ w) : lastPlace v ≤ lastPlace w :=
  max_le_max_right _ (sub_le_sub_right (Int.log_mono_right hv h) _)

/-- A larger number is not rounded to a smaller double. -/
theorem nearest_mono {v w : ℚ} (hv : 0 ≤ v) (h : v ≤ w) : nearest v ≤ nearest w := by
  rcases hv.eq_or_lt with rfl | hv
  · rw [nearest_zero]
    exact Nat.zero_le _
  have hw := hv.trans_le h
  rw [nearest, nearest, if_neg hv.ne', if_neg hw.ne']
  have hplace := le_lastPlace v
  rcases (lastPlace_mono hv h).lt_or_eq with hlt | heq
  · have hle := nearestWhole_lastPlace_le hv
    have hge := (le_nearestWhole_lastPlace hw).resolve_right (by omega)
    omega
  · have hpow : (0 : ℚ) < 2 ^ lastPlace v := zpow_pos two_pos _
    have hle := nearestWhole_mono ((div_le_div_iff_of_pos_right hpow).mpr h)
    rw [← heq]
    omega

/-! ## Distance -/

/-- A number is at most one half away from the nearest whole number. -/
theorem abs_nearestWhole_sub_le {r : ℚ} (hr : 0 ≤ r) : |(nearestWhole r : ℚ) - r| ≤ 1 / 2 := by
  have hlower := Nat.floor_le hr
  have hupper := Nat.lt_floor_add_one r
  rw [nearestWhole, abs_le]
  split_ifs with hless hhalf
  · constructor <;> linarith
  · rcases Nat.mod_two_eq_zero_or_one ⌊r⌋₊ with hmod | hmod <;> rw [hmod] <;> push_cast <;>
      constructor <;> linarith
  · push_cast
    constructor <;> linarith

/-- A whole number less than one half away is the nearest. -/
theorem nearestWhole_eq {r : ℚ} {n : ℕ} (hr : 0 ≤ r) (h : |r - n| < 1 / 2) :
    nearestWhole r = n := by
  have hround := abs_nearestWhole_sub_le hr
  have hclose : |(nearestWhole r : ℚ) - n| < 1 := by
    calc |(nearestWhole r : ℚ) - n| ≤ |(nearestWhole r : ℚ) - r| + |r - n| := abs_sub_le _ _ _
      _ < 1 := by linarith
  have hint : |(nearestWhole r : ℤ) - n| < 1 := by exact_mod_cast hclose
  have := Int.abs_lt_one_iff.mp hint
  omega

theorem le_lastPlace_mul {n : ℕ} (hn : 2 ^ 52 ≤ n) (t : ℤ) : t ≤ lastPlace (n * 2 ^ t) := by
  have hpos : 0 < n := lt_of_lt_of_le (by norm_num) hn
  have hlog := (Nat.le_log2 hpos.ne').mpr hn
  rw [lastPlace, log_natCast_mul_zpow hpos]
  omega

theorem magnitude_nonneg (x : Float) : 0 ≤ magnitude x :=
  mul_nonneg (Nat.cast_nonneg _) (zpow_pos two_pos _).le

theorem mantissa_pos {x : Float} (h : 0 < magnitude x) : 0 < (binaryParts x).1 :=
  Nat.cast_pos.mp (pos_of_mul_pos_left h (zpow_pos two_pos _).le)

/-- The last place of a double is the power of two it is counted in. -/
theorem lastPlace_magnitude {x : Float} (h : 0 < magnitude x) :
    lastPlace (magnitude x) = (binaryParts x).2 :=
  (canonical_binaryParts x).lastPlace_eq (mantissa_pos h)

section

variable {x : Float} {v : ℚ} (hv : 0 < v) (hx : x.toBits.toNat = nearest v)
  (hfinite : x.isFinite = true)
include hv hx hfinite

/-- A number that is read as a double lies where doubles are no further apart than above the double
itself. -/
theorem lastPlace_le_of_nearest : lastPlace v ≤ (binaryParts x).2 := by
  rcases le_nearestWhole_lastPlace hv with hfull | hplace
  · have hmagnitude := magnitude_of_nearest hv hx hfinite
    have hpos : 0 < magnitude x := by
      have hwhole : 0 < nearestWhole (v / 2 ^ lastPlace v) := lt_of_lt_of_le (by norm_num) hfull
      rw [hmagnitude]
      positivity
    rw [← lastPlace_magnitude hpos, hmagnitude]
    exact le_lastPlace_mul hfull _
  · rw [hplace]
    exact (canonical_binaryParts x).le

/-- A number is no further from the double it is rounded to than one unit of its last place. -/
theorem abs_magnitude_sub_le : |magnitude x - v| ≤ 2 ^ (binaryParts x).2 := by
  have hpow : (0 : ℚ) < 2 ^ lastPlace v := zpow_pos two_pos _
  have hround := abs_nearestWhole_sub_le (div_pos hv hpow).le
  have hfactor : magnitude x - v =
      (nearestWhole (v / 2 ^ lastPlace v) - v / 2 ^ lastPlace v) * 2 ^ lastPlace v := by
    rw [magnitude_of_nearest hv hx hfinite, sub_mul, div_mul_cancel₀ _ hpow.ne']
  calc |magnitude x - v|
      = |(nearestWhole (v / 2 ^ lastPlace v) : ℚ) - v / 2 ^ lastPlace v| * 2 ^ lastPlace v := by
        rw [hfactor, abs_mul, abs_of_pos hpow]
    _ ≤ 1 * 2 ^ lastPlace v := by gcongr; linarith
    _ ≤ 2 ^ (binaryParts x).2 := by
        rw [one_mul]
        exact zpow_le_zpow_right₀ one_le_two (lastPlace_le_of_nearest hv hx hfinite)

end

/-! ## Neighbourhoods -/

section

variable {r : ℚ} (hr : 0 < r) {t : ℤ}
include hr

/-- What is rounded to a given mantissa where the last place is known. -/
theorem nearest_of_lastPlace (hplace : lastPlace (r * 2 ^ t) = t) {n : ℕ} (h : |r - n| < 1 / 2) :
    nearest (r * 2 ^ t) = min ((t + 1074).toNat * 2 ^ 52 + n) (2047 * 2 ^ 52) := by
  have hpow : (0 : ℚ) < 2 ^ t := zpow_pos two_pos t
  rw [nearest, if_neg (mul_pos hr hpow).ne', hplace, mul_div_cancel_right₀ _ hpow.ne',
    nearestWhole_eq hr.le h]

theorem lastPlace_mul_zpow : lastPlace (r * 2 ^ t) = max (Int.log 2 r + t - 52) (-1074) := by
  rw [lastPlace, log_mul_zpow hr]

/-- Just below the first double of an exponent, the doubles are half as far apart, and a number is
rounded up to the first one from half that distance on. -/
theorem nearest_below_first (ht : -1074 < t) (hlower : 2 ^ 52 - 1 / 4 < r) (hupper : r < 2 ^ 52) :
    nearest (r * 2 ^ t) = min ((t + 1074).toNat * 2 ^ 52 + 2 ^ 52) (2047 * 2 ^ 52) := by
  have hdouble : r * 2 ^ t = 2 * r * 2 ^ (t - 1) := by
    rw [zpow_sub_one₀ two_ne_zero]
    field_simp
  have hpos : 0 < 2 * r := by linarith
  have hlog : Int.log 2 (2 * r) = 52 := by
    refine le_antisymm (Int.le_of_lt_add_one ?_) ?_
    · rw [log_lt_iff hpos]
      norm_num at hupper ⊢
      linarith
    · rw [le_log_iff hpos]
      norm_num at hlower ⊢
      linarith
  have hplace : lastPlace (2 * r * 2 ^ (t - 1)) = t - 1 := by
    rw [lastPlace_mul_zpow hpos, hlog]
    omega
  have hclose : |2 * r - (2 ^ 53 : ℕ)| < 1 / 2 := by
    push_cast
    exact abs_lt.mpr ⟨by linarith, by linarith⟩
  rw [hdouble, nearest_of_lastPlace hpos hplace hclose]
  omega

end

/-- What differs from a double by less than one part in `2 ^ 54` is rounded to it. -/
theorem Canonical.nearest_eq_of_close {n : ℕ} {t : ℤ} (h : Canonical n t) (hn : 0 < n) {v : ℚ}
    (hclose : |v - n * 2 ^ t| < n * 2 ^ t / 2 ^ 54) : nearest v = nearest (n * 2 ^ t) := by
  have hpow : (0 : ℚ) < 2 ^ t := zpow_pos two_pos t
  obtain ⟨r, rfl⟩ : ∃ r, v = r * 2 ^ t := ⟨v / 2 ^ t, (div_mul_cancel₀ _ hpow.ne').symm⟩
  rw [← sub_mul, abs_mul, abs_of_pos hpow, mul_div_right_comm, mul_lt_mul_iff_left₀ hpow] at hclose
  obtain ⟨hlower, hupper⟩ := abs_lt.mp hclose
  have hone : (1 : ℚ) ≤ n := Nat.one_le_cast.mpr hn
  have hlt : (n : ℚ) + 1 ≤ 2 ^ 53 := by exact_mod_cast h.lt
  have hr : 0 < r := by linarith
  have hlog : Int.log 2 r < 53 := (log_lt_iff hr).mpr (by norm_num at hlt ⊢; linarith)
  have hle := h.le
  have hplace := lastPlace_mul_zpow hr (t := t)
  rw [h.nearest_eq]
  rcases (show lastPlace (r * 2 ^ t) ≤ t by omega).eq_or_lt with heq | hless
  · exact nearest_of_lastPlace hr heq (by linarith)
  -- The number has a smaller last place only if the double is the first of its exponent.
  · have hlogBelow : Int.log 2 r < 52 := by omega
    have hbelow : r < 2 ^ 52 := by exact_mod_cast (log_lt_iff hr).mp hlogBelow
    have hfirst : n = 2 ^ 52 := by
      have hfull := h.full.resolve_right (by omega)
      have hcast : (n : ℚ) < (2 ^ 52 + 1 : ℕ) := by
        push_cast
        linarith
      have := Nat.cast_lt.mp hcast
      omega
    rw [hfirst] at hlower ⊢
    push_cast at hlower
    exact nearest_below_first hr (by omega) (by linarith) hbelow

end Lox.Double
