import Lox.Decimal.Shortest
import Lox.Proofs.Decimal.Reading

/-!
# What the search for few digits finds

The search drops as many digits of the exact value as it can.  It stops at the first decimal that is
read as the double, so whatever is found is read back.  Where the double is a whole number, the
search stops before it could take up a digit after the point.
-/

namespace Lox.Decimal

open Double

/-! ## The exact value -/

theorem exact_of_nonneg {x : Float} (h : 0 ≤ (binaryParts x).2) :
    exact x = ⟨(binaryParts x).1 * 2 ^ (binaryParts x).2.natAbs, 0⟩ :=
  if_pos h

theorem exact_of_neg {x : Float} (h : ¬0 ≤ (binaryParts x).2) :
    exact x = ⟨(binaryParts x).1 * 5 ^ (binaryParts x).2.natAbs, (binaryParts x).2⟩ :=
  if_neg h

theorem ten_pow (k : ℕ) : (10 : ℚ) ^ k = 5 ^ k * 2 ^ k := by
  rw [← mul_pow]
  norm_num

/-- The exact decimal has the value of the double. -/
theorem value_exact (x : Float) : (exact x).value = magnitude x := by
  rw [magnitude]
  by_cases hnonneg : 0 ≤ (binaryParts x).2
  · rw [exact_of_nonneg hnonneg, value, zpow_eq_pow 2 hnonneg]
    simp
  · have hneg := (not_le.mp hnonneg).le
    rw [exact_of_neg hnonneg, value, zpow_eq_inv_pow 2 hneg, zpow_eq_inv_pow 10 hneg, ten_pow]
    push_cast
    field_simp

section

variable {x : Float} {d : Decimal}

theorem readsAs_iff : readsAs x d = true ↔ d.toFloat = x := by
  rw [readsAs, beq_iff_eq]
  exact ⟨fun h ↦ eq_of_toNat (congrArg UInt64.toNat h), congrArg Float.toBits⟩

/-- Decimals of the same value are read alike, with however many digits. -/
theorem toFloat_eq_of_value_eq {d' : Decimal} (h : d.value = d'.value) : d.toFloat = d'.toFloat :=
  eq_of_toNat (by rw [toNat_toFloat, toNat_toFloat, h])

variable (hfinite : x.isFinite = true) (hsign : x.toBits.toNat < 2 ^ 63)
include hfinite hsign

theorem toFloat_of_magnitude (h : d.value = magnitude x) : d.toFloat = x :=
  eq_of_toNat (by rw [toNat_toFloat, h, nearest_magnitude hfinite, Nat.mod_eq_of_lt hsign])

end

/-! ## Candidates -/

/-- A decimal without its last digits. -/
def below (d : Decimal) (surplus : ℕ) : Decimal :=
  ⟨d.coefficient / 10 ^ surplus, d.exponent + surplus⟩

/-- The next decimal of as many digits, or of one if there is a carry into a new place. -/
def above (d : Decimal) (size surplus : ℕ) : Decimal :=
  if d.coefficient / 10 ^ surplus + 1 = 10 ^ (size - surplus) then ⟨1, d.exponent + size⟩
  else ⟨d.coefficient / 10 ^ surplus + 1, d.exponent + surplus⟩

/-- What is tried for a number of digits is the decimal itself, or its neighbours with fewer digits
as far as they are close enough. -/
theorem mem_roundings_iff {d d' : Decimal} {size slack surplus : ℕ} :
    d' ∈ d.roundings size slack surplus ↔ surplus = 0 ∧ d' = d ∨
      surplus ≠ 0 ∧ (d.coefficient % 10 ^ surplus ≤ slack ∧ d' = d.below surplus ∨
        10 ^ surplus - d.coefficient % 10 ^ surplus ≤ slack ∧ d' = d.above size surplus) := by
  by_cases hzero : surplus = 0
  · simp [roundings, hzero]
  · have horder : d.roundings size slack surplus =
        let downward := if d.coefficient % 10 ^ surplus ≤ slack then [d.below surplus] else []
        let upward := if 10 ^ surplus - d.coefficient % 10 ^ surplus ≤ slack
          then [d.above size surplus] else []
        if 2 * (d.coefficient % 10 ^ surplus) < 10 ^ surplus ∨
            (2 * (d.coefficient % 10 ^ surplus) = 10 ^ surplus ∧
              d.coefficient / 10 ^ surplus % 2 = 0)
          then downward ++ upward else upward ++ downward := if_neg hzero
    rw [horder]
    simp only [hzero, false_and, false_or, ne_eq, not_false_eq_true, true_and]
    split_ifs <;> simp_all [or_comm]

/-! ## Where the search stops -/

theorem mem_of_range_eq {n a b : ℕ} {l₁ l₂ : List ℕ}
    (h : List.range n = l₁ ++ a :: l₂) (hb : b < a) :
    b ∈ l₁ := by
  have hsorted : (l₁ ++ a :: l₂).Pairwise (· < ·) := h ▸ List.pairwise_lt_range
  have ha : a < n := List.mem_range.mp (h ▸ List.mem_append_right _ List.mem_cons_self)
  have hmem : b ∈ l₁ ++ a :: l₂ := h ▸ List.mem_range.mpr (hb.trans ha)
  rw [List.mem_append, List.mem_cons] at hmem
  rcases hmem with hfront | rfl | hback
  · exact hfront
  · exact absurd hb (lt_irrefl b)
  · have hlt := (List.pairwise_cons.mp (List.pairwise_append.mp hsorted).2.1).1 b hback
    omega

/-- What is found has lost the most digits that anything read as the double can lose. -/
theorem exists_surplus {x : Float} (hfinite : x.isFinite = true) (hsign : x.toBits.toNat < 2 ^ 63) :
    ∃ surplus < (exact x).digits.length,
      shortest x ∈ (exact x).roundings (exact x).digits.length (spacing x) surplus ∧
      readsAs x (shortest x) = true ∧
      ∀ more < (exact x).digits.length, surplus < more →
        ∀ d ∈ (exact x).roundings (exact x).digits.length (spacing x) more,
          readsAs x d = false := by
  have hsize : 0 < (exact x).digits.length := Nat.length_toDigits_pos
  rw [shortest]
  generalize hsearch : (List.range (exact x).digits.length).findSome? _ = found
  cases found with
  | none =>
    -- The exact value itself is tried last, and it is read back.
    have hlast := List.findSome?_eq_none_iff.mp hsearch ((exact x).digits.length - 1)
      (List.mem_range.mpr (by omega))
    rw [Nat.sub_self, roundings, if_pos rfl, List.find?_singleton,
      if_pos (readsAs_iff.mpr (toFloat_of_magnitude hfinite hsign (value_exact x)))] at hlast
    cases hlast
  | some found =>
    obtain ⟨l₁, dropped, l₂, hrange, hfound, hbefore⟩ := List.findSome?_eq_some_iff.mp hsearch
    have hdropped : dropped < (exact x).digits.length :=
      List.mem_range.mp (hrange ▸ List.mem_append_right _ List.mem_cons_self)
    refine ⟨(exact x).digits.length - 1 - dropped, by omega, List.mem_of_find?_eq_some hfound,
      List.find?_some hfound, ?_⟩
    intro more hmore hlt d hd
    have hnone := hbefore ((exact x).digits.length - 1 - more) (mem_of_range_eq hrange (by omega))
    have hsurplus : (exact x).digits.length - 1 - ((exact x).digits.length - 1 - more) = more := by
      omega
    rw [hsurplus, List.find?_eq_none] at hnone
    exact Bool.not_eq_true _ ▸ hnone d hd

/-- The shortest decimal is read back. -/
theorem toFloat_shortest {x : Float} (hfinite : x.isFinite = true)
    (hsign : x.toBits.toNat < 2 ^ 63) :
    (shortest x).toFloat = x := by
  obtain ⟨_, _, _, hreads, _⟩ := exists_surplus hfinite hsign
  exact readsAs_iff.mp hreads

/-! ## Whole numbers -/

/-- The last place of a rounding is no finer than the digits that are left off allow. -/
theorem le_exponent_of_mem_roundings {d d' : Decimal} {size slack surplus : ℕ}
    (hle : surplus ≤ size)
    (h : d' ∈ d.roundings size slack surplus) : d.exponent + surplus ≤ d'.exponent := by
  rcases mem_roundings_iff.mp h with ⟨rfl, rfl⟩ | ⟨-, ⟨-, rfl⟩ | ⟨-, rfl⟩⟩
  · simp
  · exact le_rfl
  · rw [above]
    split_ifs
    · simp only
      omega
    · exact le_rfl

section

variable {x : Float} (hfinite : x.isFinite = true) (hsign : x.toBits.toNat < 2 ^ 63)
include hfinite hsign

/-- No digit after the point is taken up for a whole number. -/
theorem exponent_shortest_nonneg {n : ℕ} (hn : 0 < n) (h : magnitude x = n) :
    0 ≤ (shortest x).exponent := by
  obtain ⟨surplus, hsurplus, hmem, -, hmore⟩ := exists_surplus hfinite hsign
  have hle := le_exponent_of_mem_roundings hsurplus.le hmem
  by_cases hnonneg : 0 ≤ (exact x).exponent
  · omega
  -- The digits after the point are all zero, so the number without them would have been found.
  by_contra hexponent
  set k := (exact x).exponent.natAbs with hk
  have hcoefficient : (exact x).coefficient = n * 10 ^ k := by
    have hvalue := (value_exact x).trans h
    rw [value, zpow_eq_inv_pow 10 (not_le.mp hnonneg).le,
      mul_inv_eq_iff_eq_mul₀ (by positivity)] at hvalue
    exact_mod_cast hvalue
  have hten : 0 < 10 ^ k := Nat.pow_pos (by norm_num)
  have hsize : k < (exact x).digits.length := by
    by_contra hle
    have hlt := (Nat.length_toDigits_le_iff (by norm_num) (by omega)).mp (not_lt.mp hle)
    rw [hcoefficient] at hlt
    exact absurd hlt (not_lt.mpr (Nat.le_mul_of_pos_left _ hn))
  have hbelow : (exact x).below k = ⟨n, 0⟩ := by
    rw [below, hcoefficient, Nat.mul_div_cancel _ hten]
    congr 1
    omega
  have hmem : (exact x).below k ∈ (exact x).roundings (exact x).digits.length (spacing x) k :=
    mem_roundings_iff.mpr (.inr ⟨by omega, .inl ⟨by simp [hcoefficient], rfl⟩⟩)
  have hunread := hmore k hsize (by omega) _ hmem
  have hreads : readsAs x ((exact x).below k) = true := by
    rw [hbelow, readsAs_iff]
    exact toFloat_of_magnitude hfinite hsign (by rw [h, value, zpow_zero, mul_one])
  exact absurd hreads (Bool.not_eq_true _ ▸ hunread)

theorem coefficient_shortest_of_zero (h : magnitude x = 0) : (shortest x).coefficient = 0 := by
  obtain ⟨surplus, hsurplus, hmem, -⟩ := exists_surplus hfinite hsign
  have hcoefficient : (exact x).coefficient = 0 := by
    have hvalue := (value_exact x).trans h
    rw [value, mul_eq_zero, or_iff_left (by positivity)] at hvalue
    exact_mod_cast hvalue
  rw [digits, hcoefficient, Nat.toDigits_zero] at hsurplus
  rcases mem_roundings_iff.mp hmem with ⟨-, heq⟩ | ⟨hne, -⟩
  · rw [heq, hcoefficient]
  · simp at hsurplus
    exact absurd hsurplus hne

/-- The digits end before the point just if the double is a whole number. -/
theorem shortest_whole_iff :
    (shortest x).coefficient = 0 ∨ 0 ≤ (shortest x).exponent ↔ ∃ n : ℕ, magnitude x = n := by
  constructor
  · intro hwhole
    have hvalue : ∃ n : ℕ, (shortest x).value = n := by
      rcases hwhole with hzero | hexponent
      · exact ⟨0, by rw [value, hzero, Nat.cast_zero, zero_mul]⟩
      · refine ⟨(shortest x).coefficient * 10 ^ (shortest x).exponent.natAbs, ?_⟩
        rw [value]
        push_cast
        rw [zpow_eq_pow 10 hexponent]
    obtain ⟨n, hvalue⟩ := hvalue
    have hbits := toNat_toFloat (shortest x)
    rw [toFloat_shortest hfinite hsign, hvalue] at hbits
    exact magnitude_of_nearest_natCast hbits hfinite
  · rintro ⟨n, hmagnitude⟩
    rcases Nat.eq_zero_or_pos n with rfl | hn
    · rw [Nat.cast_zero] at hmagnitude
      exact .inl (coefficient_shortest_of_zero hfinite hsign hmagnitude)
    · exact .inr (exponent_shortest_nonneg hfinite hsign hn hmagnitude)

end

end Lox.Decimal
