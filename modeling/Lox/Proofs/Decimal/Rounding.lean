import Lox.Decimal
import Mathlib

/-!
# Doubles next to a rational number

The doubles that are not negative are numbered by their bit patterns in the order of their values.
Between two powers of two they are equally far apart, and where the exponent is smallest they go on
with the same distance down to zero.  So the pattern of the double nearest to a rational number is
found by counting in units of that distance, and a carry into the next power of two comes out right
by itself.

The arithmetic of doubles is shown to round in this way whenever it knows on which side of the
middle between two doubles the exact result lies.
-/

namespace Lox.Double

open Float.Model Float.Model.UnpackedFloat

/-! ## Nearest doubles -/

/-- The exponent of the distance between the doubles around a positive number. -/
def lastPlace (v : ℚ) : ℤ :=
  max (Int.log 2 v - 52) (-1074)

/-- The whole number nearest to one that is not negative, and the even one if there are two. -/
def nearestWhole (r : ℚ) : ℕ :=
  if r - ⌊r⌋₊ < 1 / 2 then ⌊r⌋₊
  else if r - ⌊r⌋₊ = 1 / 2 then ⌊r⌋₊ + ⌊r⌋₊ % 2
  else ⌊r⌋₊ + 1

/-- The bit pattern of the double nearest to a number that is not negative; infinity is nearest to
all that are too large. -/
def nearest (v : ℚ) : ℕ :=
  if v = 0 then 0
  else
    min ((lastPlace v + 1074).toNat * 2 ^ 52 + nearestWhole (v / 2 ^ lastPlace v)) (2047 * 2 ^ 52)

theorem nearest_zero : nearest 0 = 0 :=
  if_pos rfl

theorem nearest_le (v : ℚ) : nearest v ≤ 2047 * 2 ^ 52 := by
  unfold nearest
  split_ifs
  · exact Nat.zero_le _
  · exact min_le_right _ _

theorem nearestWhole_natCast (n : ℕ) : nearestWhole n = n := by
  simp [nearestWhole]

theorem le_lastPlace (v : ℚ) : -1074 ≤ lastPlace v :=
  le_max_right _ _

/-! ## Residual bits -/

/-- A mantissa is the whole part of a number, and the bits beside it tell how the rest compares with
one half. -/
structure Shows (em : ExtendedMantissa) (r : ℚ) : Prop where
  lower : (em.mantissa : ℚ) ≤ r
  upper : r < em.mantissa + 1
  round : em.roundBit = true ↔ 1 / 2 ≤ r - em.mantissa
  sticky : em.stickyBit = true ↔ r - em.mantissa ≠ 0 ∧ r - em.mantissa ≠ 1 / 2

namespace Shows

variable {em : ExtendedMantissa} {r : ℚ}

/-- Together the two bits say whether anything is left after the whole part. -/
theorem or_eq_true_iff (h : Shows em r) :
    (em.roundBit || em.stickyBit) = true ↔ r - em.mantissa ≠ 0 := by
  rw [Bool.or_eq_true, h.round, h.sticky]
  constructor
  · rintro (hhalf | ⟨hne, -⟩)
    · intro heq
      linarith
    · exact hne
  · intro hne
    by_cases hhalf : 1 / 2 ≤ r - em.mantissa
    · exact .inl hhalf
    · exact .inr ⟨hne, fun heq ↦ hhalf heq.ge⟩

/-- Shifting by one place keeps track of what falls off: a half, more or less than that, or nothing.
-/
theorem shiftRightOne (h : Shows em r) : Shows em.shiftRightOne (r / 2) := by
  have hrest := h.or_eq_true_iff
  obtain ⟨m, b, s⟩ := em
  obtain ⟨hlower, hupper, -, -⟩ := h
  simp only at hlower hupper hrest
  rcases Nat.even_or_odd' m with ⟨k, rfl | rfl⟩
  · have hdiv : 2 * k / 2 = k := by omega
    have hmod : 2 * k % 2 = 0 := by omega
    push_cast at hlower hupper hrest
    refine ⟨?_, ?_, ?_, ?_⟩ <;> simp only [ExtendedMantissa.shiftRightOne, hdiv, hmod]
    · linarith
    · linarith
    · simp only [bne_self_eq_false, Bool.false_eq_true, false_iff]
      intro hhalf
      linarith
    · rw [hrest]
      constructor
      · intro hne
        exact ⟨fun heq ↦ hne (by linarith), fun heq ↦ by linarith⟩
      · rintro ⟨hne, -⟩ heq
        exact hne (by linarith)
  · have hdiv : (2 * k + 1) / 2 = k := by omega
    have hmod : (2 * k + 1) % 2 = 1 := by omega
    push_cast at hlower hupper hrest
    refine ⟨?_, ?_, ?_, ?_⟩ <;> simp only [ExtendedMantissa.shiftRightOne, hdiv, hmod]
    · linarith
    · linarith
    · simp only [show (1 != 0) = true from rfl, true_iff]
      linarith
    · rw [hrest]
      constructor
      · intro hne
        exact ⟨fun heq ↦ by linarith, fun heq ↦ hne (by linarith)⟩
      · rintro ⟨-, hne⟩ heq
        exact hne (by linarith)

/-- Shifting by any number of places does. -/
theorem shiftRight (h : Shows em r) (k : ℕ) : Shows (em >>> k) (r / 2 ^ k) := by
  induction k with
  | zero =>
    change Shows em (r / 2 ^ 0)
    simpa using h
  | succ k ih =>
    have hstep := ih.shiftRightOne
    rw [div_div, ← pow_succ] at hstep
    exact hstep

theorem floor_eq (h : Shows em r) : ⌊r⌋₊ = em.mantissa := by
  have hr : 0 ≤ r := (Nat.cast_nonneg _).trans h.lower
  exact (Nat.floor_eq_iff hr).mpr ⟨h.lower, h.upper⟩

/-- With the bits beside it, a mantissa is rounded to the nearest whole number. -/
theorem roundedMantissa (h : Shows em r) : em.roundedMantissa = nearestWhole r := by
  have hfloor := h.floor_eq
  obtain ⟨m, b, s⟩ := em
  obtain ⟨-, -, hround, hsticky⟩ := h
  simp only at hfloor hround hsticky
  unfold nearestWhole
  rw [hfloor]
  cases b with
  | false =>
    have hlt : r - m < 1 / 2 := by
      rw [← not_le, ← hround]
      exact Bool.false_ne_true
    rw [if_pos hlt]
    cases s <;> rfl
  | true =>
    have hle : 1 / 2 ≤ r - m := hround.mp rfl
    rw [if_neg (not_lt.mpr hle)]
    cases s with
    | false =>
      have heq : r - m = 1 / 2 := by
        by_contra hne
        have hzero : r - m ≠ 0 := by linarith
        exact Bool.false_ne_true (hsticky.mpr ⟨hzero, hne⟩)
      rw [if_pos heq]
      rfl
    | true =>
      rw [if_neg (hsticky.mp rfl).2]
      rfl

end Shows

/-! ## Exponents -/

theorem zpow_eq_pow (b : ℚ) {t : ℤ} (ht : 0 ≤ t) : b ^ t = b ^ t.natAbs := by
  rw [← zpow_natCast, Int.natAbs_of_nonneg ht]

theorem zpow_eq_inv_pow (b : ℚ) {t : ℤ} (ht : t ≤ 0) : b ^ t = (b ^ t.natAbs)⁻¹ := by
  rw [← zpow_natCast, ← zpow_neg, Int.ofNat_natAbs_of_nonpos ht, neg_neg]

theorem le_log_iff {v : ℚ} (hv : 0 < v) {k : ℤ} : k ≤ Int.log 2 v ↔ (2 : ℚ) ^ k ≤ v := by
  exact_mod_cast (Int.zpow_le_iff_le_log one_lt_two hv).symm

theorem log_lt_iff {v : ℚ} (hv : 0 < v) {k : ℤ} : Int.log 2 v < k ↔ v < (2 : ℚ) ^ k := by
  exact_mod_cast (Int.lt_zpow_iff_log_lt one_lt_two hv).symm

theorem zpow_log_le {v : ℚ} (hv : 0 < v) : (2 : ℚ) ^ Int.log 2 v ≤ v :=
  (le_log_iff hv).mp le_rfl

theorem lt_zpow_log {v : ℚ} (hv : 0 < v) : v < (2 : ℚ) ^ (Int.log 2 v + 1) :=
  (log_lt_iff hv).mp (Int.lt_succ _)

theorem log_mul_zpow {r : ℚ} (hr : 0 < r) (t : ℤ) : Int.log 2 (r * 2 ^ t) = Int.log 2 r + t := by
  have hpow : (0 : ℚ) < 2 ^ t := zpow_pos two_pos t
  refine le_antisymm (Int.le_of_lt_add_one ?_) ?_
  · rw [log_lt_iff (mul_pos hr hpow), add_right_comm, zpow_add₀ two_ne_zero]
    exact mul_lt_mul_of_pos_right (lt_zpow_log hr) hpow
  · rw [le_log_iff (mul_pos hr hpow), zpow_add₀ two_ne_zero]
    exact mul_le_mul_of_nonneg_right (zpow_log_le hr) hpow.le

/-- The whole part of a number has the same leading place, unless it is zero. -/
theorem log_eq_log2 {m : ℕ} {r : ℚ} (hm : 0 < m) (hlower : m ≤ r) (hupper : r < m + 1) :
    Int.log 2 r = m.log2 := by
  have hr : 0 < r := (Nat.cast_pos.mpr hm).trans_le hlower
  refine le_antisymm (Int.le_of_lt_add_one ?_) ?_
  · rw [log_lt_iff hr]
    have hlog : (m : ℚ) + 1 ≤ 2 ^ (m.log2 + 1 : ℤ) := by exact_mod_cast Nat.lt_log2_self
    exact hupper.trans_le hlog
  · rw [le_log_iff hr, zpow_natCast]
    have hlog : (2 : ℚ) ^ m.log2 ≤ m := by exact_mod_cast Nat.log2_self_le hm.ne'
    exact hlog.trans hlower

theorem log_natCast_mul_zpow {n : ℕ} (hn : 0 < n) (t : ℤ) :
    Int.log 2 ((n : ℚ) * 2 ^ t) = n.log2 + t := by
  rw [log_mul_zpow (Nat.cast_pos.mpr hn), log_eq_log2 hn le_rfl (lt_add_one _)]

/-- Below the smallest double, the last place is that of the smallest double. -/
theorem lastPlace_of_lt {v : ℚ} (hv : 0 < v) (h : v < 2 ^ (-1074 : ℤ)) : lastPlace v = -1074 := by
  have hlog := (log_lt_iff hv).mpr h
  unfold lastPlace
  omega

theorem targetExponent_eq (m : ℕ) (e : ℤ) :
    Format.binary64.targetExponent (totalExponent m e) = max (m.log2 + e - 52) (-1074) := by
  simp only [Format.targetExponent, totalExponent, Format.mantissaBits, Format.minExponent]
  norm_num
  omega

/-! ## Rounding -/

section

variable {m : ℕ} {e : ℤ} {accuracy : Accuracy} {v : ℚ}

theorem mantissa_ofMantissaAndAccuracy :
    (ExtendedMantissa.ofMantissaAndAccuracy m accuracy).mantissa = m := by
  rcases accuracy with _ | _ | _ | _ <;> rfl

/-- A number is shown with enough places: as many as doubles have, or down to the last place of the
smallest of them. -/
structure ShownBy (m : ℕ) (e : ℤ) (accuracy : Accuracy) (v : ℚ) : Prop where
  pos : 0 < v
  shows : Shows (.ofMantissaAndAccuracy m accuracy) (v / 2 ^ e)
  fine : e ≤ lastPlace v
  leads : 0 < m ∨ e ≤ -1074

/-- The exponent that a number is brought to is its last place. -/
theorem ShownBy.targetExponent (h : ShownBy m e accuracy v) :
    Format.binary64.targetExponent (totalExponent m e) = lastPlace v := by
  have hlower := h.shows.lower
  have hupper := h.shows.upper
  rw [mantissa_ofMantissaAndAccuracy] at hlower hupper
  rw [targetExponent_eq]
  rcases Nat.eq_zero_or_pos m with rfl | hm
  · have he : e ≤ -1074 := h.leads.resolve_left (lt_irrefl 0)
    have hsmall : v < 2 ^ (-1074 : ℤ) := by
      rw [Nat.cast_zero, zero_add, div_lt_one (zpow_pos two_pos e)] at hupper
      exact hupper.trans_le (zpow_le_zpow_right₀ one_le_two he)
    rw [lastPlace_of_lt h.pos hsmall, Nat.log2_zero]
    omega
  · have hpos : 0 < v / 2 ^ e := div_pos h.pos (zpow_pos two_pos e)
    rw [lastPlace, ← log_eq_log2 hm hlower hupper, ← log_mul_zpow hpos,
      div_mul_cancel₀ _ (zpow_ne_zero e two_ne_zero)]

/-- Brought to its last place, a number is shown by mantissa and bits. -/
theorem ShownBy.shift (h : ShownBy m e accuracy v) :
    ∃ em, shiftToTargetExponent Format.binary64 m e accuracy = (em, lastPlace v) ∧
      Shows em (v / 2 ^ lastPlace v) := by
  have hcount : e + ((lastPlace v - e).toNat : ℤ) = lastPlace v := by
    have := h.fine
    omega
  have hshift := h.shows.shiftRight (lastPlace v - e).toNat
  rw [div_div, ← zpow_natCast, ← zpow_add₀ two_ne_zero, hcount] at hshift
  refine ⟨_, ?_, hshift⟩
  simp only [shiftToTargetExponent, shiftToExponent, h.targetExponent, hcount]

/-- The whole part and the rest take no more places than doubles have. -/
theorem lt_of_lastPlace (hv : 0 < v) : v / 2 ^ lastPlace v < 2 ^ 53 := by
  have hplace : Int.log 2 v + 1 ≤ 53 + lastPlace v := by
    unfold lastPlace
    omega
  rw [div_lt_iff₀ (zpow_pos two_pos _)]
  calc v < 2 ^ (Int.log 2 v + 1) := lt_zpow_log hv
    _ ≤ 2 ^ (53 + lastPlace v) := zpow_le_zpow_right₀ one_le_two hplace
    _ = 2 ^ 53 * 2 ^ lastPlace v := zpow_add₀ two_ne_zero _ _

/-- A number that is not among the smallest fills all places. -/
theorem le_of_lastPlace (hv : 0 < v) (h : lastPlace v ≠ -1074) :
    (2 : ℚ) ^ 52 ≤ v / 2 ^ lastPlace v := by
  have hplace : 52 + lastPlace v = Int.log 2 v := by
    unfold lastPlace at h ⊢
    omega
  rw [le_div_iff₀ (zpow_pos two_pos _)]
  calc (2 : ℚ) ^ 52 * 2 ^ lastPlace v = 2 ^ (52 + lastPlace v) := (zpow_add₀ two_ne_zero _ _).symm
    _ = 2 ^ Int.log 2 v := by rw [hplace]
    _ ≤ v := zpow_log_le hv

end

/-! ## Bit patterns -/

/-- A positive pattern is made of the exponent and the mantissa below it. -/
theorem toNat_packComponents (exponent : BitVec 11) (mantissa : BitVec 52) :
    (packComponents Format.binary64 .positive exponent mantissa).toNat =
      exponent.toNat * 2 ^ 52 + mantissa.toNat := by
  have hmantissa : mantissa.toNat < 2 ^ 52 := mantissa.isLt
  change (0#1 ++ exponent ++ mantissa).toNat = _
  rw [BitVec.toNat_append, ← Nat.shiftLeft_add_eq_or_of_lt hmantissa, Nat.shiftLeft_eq,
    BitVec.toNat_append]
  simp

theorem toNat_pack_zero : (UnpackedFloat.pack Format.binary64 (.zero .positive)).toNat = 0 :=
  toNat_packComponents 0 0

/-- A mantissa and an exponent as a double has them: the mantissa takes all places, or the exponent
is the smallest. -/
structure Canonical (n : ℕ) (t : ℤ) : Prop where
  lt : n < 2 ^ 53
  le : -1074 ≤ t
  full : 2 ^ 52 ≤ n ∨ t = -1074

/-- The number with a given mantissa and exponent, which is zero if the mantissa is. -/
def assemble (sign : Sign) (n : ℕ) (t : ℤ) : UnpackedFloat :=
  if h : n = 0 then .zero sign else .finite sign n t (Nat.pos_of_ne_zero h)

/-- The pattern of a double.  Where the exponent is too large, it is that of infinity. -/
theorem Canonical.toNat_pack {n : ℕ} {t : ℤ} (h : Canonical n t) :
    (UnpackedFloat.pack Format.binary64 (assemble .positive n t)).toNat =
      min ((t + 1074).toNat * 2 ^ 52 + n) (2047 * 2 ^ 52) := by
  obtain ⟨hlt, hle, hfull⟩ := h
  by_cases hzero : n = 0
  · rw [assemble, dif_pos hzero, toNat_pack_zero]
    omega
  have hbias : (t + (1023 : ℕ) + (52 : ℕ)).toNat = (t + 1074).toNat + 1 := by omega
  rw [assemble, dif_neg hzero, UnpackedFloat.pack]
  change BitVec.toNat (if 2 ^ 11 ≤ (t + (1023 : ℕ) + (52 : ℕ)).toNat + 1 then
      packedInfinity Format.binary64 .positive
    else if n.log2 + 1 = 53 then
      packComponents Format.binary64 .positive
        (BitVec.ofNat 11 (t + (1023 : ℕ) + (52 : ℕ)).toNat) (BitVec.ofNat 52 n)
    else packComponents Format.binary64 .positive 0#11 (BitVec.ofNat 52 n)) = _
  rw [hbias]
  split_ifs with hlarge hlog
  · rw [packedInfinity, toNat_packComponents]
    change 2047 * 2 ^ 52 + 0 = _
    omega
  · have hself := Nat.log2_self_le hzero
    rw [show n.log2 = 52 by omega] at hself
    rw [toNat_packComponents, BitVec.toNat_ofNat, BitVec.toNat_ofNat]
    omega
  · have hsmall : n < 2 ^ 52 := by
      by_contra hlarge
      exact hlog (congrArg (· + 1) ((Nat.log2_eq_iff hzero).mpr ⟨not_lt.mp hlarge, hlt⟩))
    rw [toNat_packComponents, BitVec.toNat_ofNat, BitVec.toNat_ofNat]
    omega

theorem floor_le_nearestWhole (r : ℚ) : ⌊r⌋₊ ≤ nearestWhole r := by
  unfold nearestWhole
  split_ifs <;> omega

theorem nearestWhole_le (r : ℚ) : nearestWhole r ≤ ⌊r⌋₊ + 1 := by
  unfold nearestWhole
  split_ifs <;> omega

theorem nearestWhole_le_of_lt {r : ℚ} (hr : 0 ≤ r) {n : ℕ} (h : r < n) : nearestWhole r ≤ n :=
  (nearestWhole_le r).trans ((Nat.floor_lt hr).mpr h)

theorem le_nearestWhole_of_le {r : ℚ} {n : ℕ} (h : n ≤ r) : n ≤ nearestWhole r :=
  (Nat.le_floor h).trans (floor_le_nearestWhole r)

/-- Rounding to the last place needs no more than one place beyond what a mantissa has. -/
theorem nearestWhole_lastPlace_le {v : ℚ} (hv : 0 < v) :
    nearestWhole (v / 2 ^ lastPlace v) ≤ 2 ^ 53 :=
  nearestWhole_le_of_lt (div_pos hv (zpow_pos two_pos _)).le (by exact_mod_cast lt_of_lastPlace hv)

/-- Rounding to the last place leaves the leading bit set, unless the number is among the smallest.
-/
theorem le_nearestWhole_lastPlace {v : ℚ} (hv : 0 < v) :
    2 ^ 52 ≤ nearestWhole (v / 2 ^ lastPlace v) ∨ lastPlace v = -1074 := by
  by_cases hsmall : lastPlace v = -1074
  · exact .inr hsmall
  · exact .inl (le_nearestWhole_of_le (by exact_mod_cast le_of_lastPlace hv hsmall))

section

variable {n : ℕ} {t : ℤ}

/-- A mantissa with no more places than doubles have is not shifted any further. -/
theorem shift_of_lt (hn : n < 2 ^ 53) (ht : -1074 ≤ t) :
    shiftToTargetExponent Format.binary64 n t .exact = (⟨n, false, false⟩, t) := by
  have hlog : n.log2 ≤ 52 := by
    rcases Nat.eq_zero_or_pos n with rfl | hpos
    · simp
    · exact Nat.le_of_lt_succ ((Nat.log2_lt hpos.ne').mpr hn)
  have hcount : (max (n.log2 + t - 52) (-1074) - t).toNat = 0 := by omega
  rw [shiftToTargetExponent, targetExponent_eq, shiftToExponent, hcount, Nat.cast_zero, add_zero]
  rfl

/-- A carry beyond the first place is taken up by the exponent. -/
theorem shift_of_carry (ht : -1074 ≤ t) :
    shiftToTargetExponent Format.binary64 (2 ^ 53) t .exact = (⟨2 ^ 52, false, false⟩, t + 1) := by
  have hcount : (max ((2 ^ 53).log2 + t - 52) (-1074) - t).toNat = 1 := by
    rw [Nat.log2_two_pow]
    omega
  rw [shiftToTargetExponent, targetExponent_eq, shiftToExponent, hcount, Nat.cast_one]
  rfl

/-- A rounded mantissa is brought into the form a double has, whether there was a carry or not.
Neither its value nor its pattern changes. -/
theorem exists_canonical (hn : n ≤ 2 ^ 53) (ht : -1074 ≤ t) (hfull : 2 ^ 52 ≤ n ∨ t = -1074) :
    ∃ n' t', Canonical n' t' ∧
      shiftToTargetExponent Format.binary64 n t .exact = (⟨n', false, false⟩, t') ∧
      (t' + 1074).toNat * 2 ^ 52 + n' = (t + 1074).toNat * 2 ^ 52 + n ∧
      (n' : ℚ) * 2 ^ t' = n * 2 ^ t := by
  rcases hn.lt_or_eq with hlt | rfl
  · exact ⟨n, t, ⟨hlt, ht, hfull⟩, shift_of_lt hlt ht, rfl, rfl⟩
  · refine ⟨2 ^ 52, t + 1, ⟨by norm_num, by omega, .inl le_rfl⟩, shift_of_carry ht, by omega, ?_⟩
    rw [zpow_add_one₀ two_ne_zero]
    push_cast
    ring

end

/-- Rounding gives the nearest double. -/
theorem ShownBy.toNat_pack_round {m : ℕ} {e : ℤ} {accuracy : Accuracy} {v : ℚ}
    (h : ShownBy m e accuracy v) :
    (UnpackedFloat.pack Format.binary64
      (roundWithAccuracy Format.binary64 .positive m e accuracy)).toNat = nearest v := by
  obtain ⟨em, hshift, hshows⟩ := h.shift
  obtain ⟨n, t, hcanonical, hcarry, hpattern, -⟩ := exists_canonical
    (nearestWhole_lastPlace_le h.pos) (le_lastPlace v) (le_nearestWhole_lastPlace h.pos)
  have hround : roundWithAccuracy Format.binary64 .positive m e accuracy =
      assemble .positive n t := by
    rw [roundWithAccuracy, hshift]
    simp only [hshows.roundedMantissa, hcarry]
    rfl
  rw [hround, hcanonical.toNat_pack, hpattern, nearest, if_neg h.pos.ne']

end Lox.Double
