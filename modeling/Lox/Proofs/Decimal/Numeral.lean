import Lox.Decimal.Style
import Lox.Proofs.Decimal.Reading
import Lox.Proofs.Scan.Join

/-!
# Decimals as text

However a decimal is laid out, its text stands for the number that the decimal is: the point may be
moved into padding zeros on either side of the digits, or its place may be told by an exponent.
Without an exponent, the text is a row of digits in which the zeros in front of the first other
digit are at most the one before the point.
-/

namespace Lox

open Decimal (valueOfDigits ofDigits)

/-! ## Rows of digits -/

namespace Decimal

/-- The digits in front are moved by as many places as there are digits behind. -/
theorem valueOfDigits_append (front back : List Char) :
    valueOfDigits (front ++ back) =
      10 ^ back.length * valueOfDigits front + valueOfDigits back := by
  change Nat.ofDigitChars 10 (front ++ back) 0 = _
  rw [Nat.ofDigitChars_append, Nat.ofDigitChars_eq_ofDigitChars_zero]
  rfl

theorem valueOfDigits_replicate (count : ℕ) : valueOfDigits (List.replicate count '0') = 0 := by
  change Nat.ofDigitChars 10 (List.replicate count '0') 0 = 0
  rw [Nat.ofDigitChars_replicate_zero, Nat.mul_zero]

/-- Writing a number in digits and reading them gives the number. -/
theorem valueOfDigits_toDigits (n : ℕ) : valueOfDigits (Nat.toDigits 10 n) = n :=
  Nat.ofDigitChars_ten_toDigits

theorem digits_ne_nil (d : Decimal) : d.digits ≠ [] :=
  Nat.toDigits_ne_nil

theorem isDigit_of_mem_digits {d : Decimal} {c : Char} (h : c ∈ d.digits) : c.isDigit = true :=
  Nat.isDigit_of_mem_toDigits (by decide) (by decide) h

/-- The digits of a number other than zero do not begin with a zero. -/
theorem head?_toDigits_ne {n : ℕ} (hn : 0 < n) : (Nat.toDigits 10 n).head? ≠ some '0' := by
  induction n using Nat.strongRecOn with
  | ind n ih =>
    rcases Nat.lt_or_ge n 10 with hlt | hge
    · rw [Nat.toDigits_of_lt_base hlt, List.head?_cons, ne_eq, Option.some.injEq,
        Nat.digitChar_eq_zero]
      exact hn.ne'
    · rw [Nat.toDigits_of_base_le (by decide) hge,
        List.head?_append_of_ne_nil _ Nat.toDigits_ne_nil]
      exact ih (n / 10) (by omega) (by omega)

/-! ## Places -/

/-- The digits before the point and those after it, where a decimal is written without an exponent.
-/
inductive Placed (d : Decimal) : List Char → List Char → Prop
  | zero (h : d.coefficient = 0) : Placed d ['0'] []
  /-- The digits end before the point, and zeros fill the places up to it. -/
  | padded {count : ℕ} (h : d.coefficient ≠ 0) (hcount : d.exponent = count) :
      Placed d (d.digits ++ List.replicate count '0') []
  /-- The digits begin after the point, and zeros fill the places down from it. -/
  | small {count : ℕ} (h : d.coefficient ≠ 0) (hcount : d.digits.length + d.exponent = -count) :
      Placed d ['0'] (List.replicate count '0' ++ d.digits)
  | divided {whole fraction : List Char} (h : d.coefficient ≠ 0) (hwhole : whole ≠ [])
      (hfraction : fraction ≠ []) (hdigits : d.digits = whole ++ fraction)
      (hexponent : d.exponent = -fraction.length) : Placed d whole fraction

namespace Placed

variable {d : Decimal} {whole fraction : List Char} (h : Placed d whole fraction)
include h

/-- At least one digit stands before the point. -/
theorem whole_ne_nil : whole ≠ [] := by
  cases h with
  | zero => simp
  | padded => simp [digits_ne_nil]
  | small => simp
  | divided _ hwhole => exact hwhole

theorem isDigit {c : Char} (hc : c ∈ whole ++ fraction) : c.isDigit = true := by
  have hzero : Char.isDigit '0' = true := rfl
  cases h with
  | zero =>
    rw [List.append_nil, List.mem_singleton] at hc
    exact hc ▸ hzero
  | padded =>
    rw [List.append_nil, List.mem_append] at hc
    rcases hc with hc | hc
    · exact isDigit_of_mem_digits hc
    · exact List.eq_of_mem_replicate hc ▸ hzero
  | small =>
    rw [List.mem_append, List.mem_singleton, List.mem_append] at hc
    rcases hc with rfl | hc | hc
    · exact hzero
    · exact List.eq_of_mem_replicate hc ▸ hzero
    · exact isDigit_of_mem_digits hc
  | divided _ _ _ hdigits => exact isDigit_of_mem_digits (hdigits ▸ hc)

/-- There is no zero in front of another digit before the point. -/
theorem eq_of_head? (hhead : whole.head? = some '0') : whole = ['0'] := by
  cases h with
  | zero => rfl
  | padded hd =>
    rw [digits, List.head?_append_of_ne_nil _ Nat.toDigits_ne_nil] at hhead
    exact absurd hhead (head?_toDigits_ne (Nat.pos_of_ne_zero hd))
  | small => rfl
  | divided hd hwhole _ hdigits =>
    have hne := head?_toDigits_ne (Nat.pos_of_ne_zero hd)
    rw [← digits, hdigits, List.head?_append_of_ne_nil _ hwhole] at hne
    exact absurd hhead hne

/-- Without an exponent, a point is needed only for what is no whole number. -/
theorem fraction_eq_nil_iff : fraction = [] ↔ d.coefficient = 0 ∨ 0 ≤ d.exponent := by
  have hlength := List.length_pos_iff.mpr d.digits_ne_nil
  cases h with
  | zero h => simp [h]
  | padded h hcount => simp [hcount]
  | small h hcount =>
    simp [d.digits_ne_nil, h]
    omega
  | divided h _ hfraction _ hexponent =>
    have := List.length_pos_iff.mpr hfraction
    simp [h, hfraction]
    omega

/-- Placing the point does not change the number. -/
theorem value_eq : (ofDigits whole fraction).value = d.value := by
  cases h with
  | zero h => simp [ofDigits, valueOfDigits, value, h]
  | @padded count h hcount =>
    rw [value, value, hcount]
    simp [ofDigits, valueOfDigits_append, valueOfDigits_replicate, digits, valueOfDigits_toDigits]
    ring
  | @small count h hcount =>
    have hcoefficient : valueOfDigits (['0'] ++ (List.replicate count '0' ++ d.digits)) =
        d.coefficient := by
      rw [← List.append_assoc, valueOfDigits_append, valueOfDigits_append, valueOfDigits_replicate,
        digits, valueOfDigits_toDigits]
      exact Nat.zero_add _
    have hexponent : -((List.replicate count '0' ++ d.digits).length : ℤ) = d.exponent := by
      rw [List.length_append, List.length_replicate]
      omega
    rw [value, value, ofDigits, hcoefficient, hexponent]
  | divided h _ _ hdigits hexponent =>
    rw [value, value, ofDigits, ← hdigits, hexponent, digits, valueOfDigits_toDigits]

end Placed

end Decimal

namespace NumberStyle

open Decimal

/-- The end of a text without an exponent. -/
def tail (style : NumberStyle) (fraction : List Char) : List Char :=
  if fraction = [] then if style.keepsFraction then ['.', '0'] else [] else '.' :: fraction

/-- Where a decimal is written without an exponent, its digits are placed around the point. -/
theorem positional_eq (style : NumberStyle) {d : Decimal} (hd : d.coefficient ≠ 0) :
    ∃ whole fraction, Placed d whole fraction ∧
      style.positional d.digits (d.digits.length + d.exponent) = whole ++ style.tail fraction := by
  have hne := d.digits_ne_nil
  have hlength := List.length_pos_iff.mpr hne
  rw [positional]
  generalize hpoint : (d.digits.length : ℤ) + d.exponent = point
  by_cases hsmall : point ≤ 0
  · have hplaced : Placed d ['0'] (List.replicate point.natAbs '0' ++ d.digits) :=
      .small hd (by omega)
    refine ⟨_, _, hplaced, ?_⟩
    rw [if_pos hsmall, tail, if_neg (by simp [hne])]
    rfl
  by_cases hpadded : d.digits.length ≤ point
  · have hplaced : Placed d (d.digits ++ List.replicate (point.natAbs - d.digits.length) '0') [] :=
      .padded hd (by omega)
    refine ⟨_, _, hplaced, ?_⟩
    rw [if_neg hsmall, if_pos hpadded, tail, if_pos rfl]
  · have hplaced : Placed d (d.digits.take point.natAbs) (d.digits.drop point.natAbs) := by
      refine .divided hd ?_ ?_ (List.take_append_drop _ _).symm ?_
      · rw [ne_eq, List.take_eq_nil_iff]
        simp only [hne, or_false]
        omega
      · rw [ne_eq, List.drop_eq_nil_iff]
        omega
      · rw [List.length_drop]
        omega
    refine ⟨_, _, hplaced, ?_⟩
    rw [if_neg hsmall, if_neg hpadded, tail, if_neg (by rw [List.drop_eq_nil_iff]; omega)]

/-- Either a text has its point in place, or it has an exponent. -/
theorem decimal_eq (style : NumberStyle) (d : Decimal) :
    (∃ whole fraction, Placed d whole fraction ∧ style.decimal d = whole ++ style.tail fraction) ∨
      d.coefficient ≠ 0 ∧ style.usesExponent (d.digits.length + d.exponent - 1) = true ∧
        style.decimal d = scientific d.digits (d.digits.length + d.exponent - 1) := by
  by_cases hzero : d.coefficient = 0
  · refine .inl ⟨_, _, .zero hzero, ?_⟩
    simp [decimal, hzero, positional, tail]
  by_cases huses : style.usesExponent (d.digits.length + d.exponent - 1) = true
  · exact .inr ⟨hzero, huses, by simp [decimal, hzero, huses]⟩
  · left
    simp only [decimal, if_neg hzero, if_neg huses]
    exact style.positional_eq hzero

end NumberStyle

/-! ## Denotation -/

/-- The characters before the first mark of a text, and those after it. -/
def cutAt (mark : Char) (text : List Char) : List Char × List Char :=
  (text.takeWhile (· != mark), (text.dropWhile (· != mark)).drop 1)

theorem cutAt_of_notMem {mark : Char} {text : List Char} (h : mark ∉ text) :
    cutAt mark text = (text, []) := by
  have hall : ∀ c ∈ text, (c != mark) = true := fun c hc ↦ bne_iff_ne.mpr fun heq ↦ h (heq ▸ hc)
  rw [cutAt, List.takeWhile_eq_self_iff.mpr hall, List.dropWhile_eq_nil_iff.mpr hall, List.drop_nil]

theorem cutAt_append {mark : Char} {front : List Char} (h : mark ∉ front) (back : List Char) :
    cutAt mark (front ++ mark :: back) = (front, back) := by
  have hall : ∀ c ∈ front, (c != mark) = true := fun c hc ↦ bne_iff_ne.mpr fun heq ↦ h (heq ▸ hc)
  have hstop : (mark != mark) = false := bne_self_eq_false mark
  rw [cutAt, takeWhile_append_stop (p := (· != mark)) hstop,
    dropWhile_append_stop (p := (· != mark)) hstop,
    List.takeWhile_eq_self_iff.mpr hall, List.dropWhile_eq_nil_iff.mpr hall]
  rfl

def signedValue : List Char → ℤ
  | '-' :: digits => -valueOfDigits digits
  | '+' :: digits => valueOfDigits digits
  | digits => valueOfDigits digits

def mantissaValue (text : List Char) : ℚ :=
  let (whole, fraction) := cutAt '.' text
  (ofDigits whole fraction).value

def unsignedValue (text : List Char) : ℚ :=
  let (mantissa, power) := cutAt 'e' text
  mantissaValue mantissa * 10 ^ signedValue power

def denotation : List Char → ℚ
  | '-' :: text => -unsignedValue text
  | text => unsignedValue text

section

variable {whole fraction : List Char} (h : ∀ c ∈ whole ++ fraction, c.isDigit = true)
include h

theorem notMem_places {c : Char} (hc : c.isDigit = false) : c ∉ whole ∧ c ∉ fraction := by
  rw [← not_or, ← List.mem_append]
  exact fun hmem ↦ Bool.false_ne_true (hc.symm.trans (h c hmem))

theorem mantissaValue_point :
    mantissaValue (whole ++ '.' :: fraction) = (ofDigits whole fraction).value := by
  rw [mantissaValue, cutAt_append (notMem_places h rfl).1]

theorem mantissaValue_whole : mantissaValue whole = (ofDigits whole []).value := by
  rw [mantissaValue, cutAt_of_notMem (notMem_places h rfl).1]

end

/-- What begins with a digit has no sign. -/
theorem denotation_of_isDigit {c : Char} (h : c.isDigit = true) (rest : List Char) :
    denotation (c :: rest) = unsignedValue (c :: rest) := by
  rw [ denotation]
  intro text heq
  obtain ⟨rfl, -⟩ := List.cons.inj heq
  cases h

theorem unsignedValue_of_notMem {text : List Char} (h : 'e' ∉ text) :
    unsignedValue text = mantissaValue text := by
  rw [unsignedValue, cutAt_of_notMem h]
  exact mul_one _

theorem unsignedValue_append {text : List Char} (h : 'e' ∉ text) (power : List Char) :
    unsignedValue (text ++ 'e' :: power) = mantissaValue text * 10 ^ signedValue power := by
  rw [unsignedValue, cutAt_append h]

namespace NumberStyle

open Decimal

/-- A number with a point, or with what a style writes in place of one, stands for its digits. -/
theorem unsignedValue_tail (style : NumberStyle) {whole fraction : List Char}
    (h : ∀ c ∈ whole ++ fraction, c.isDigit = true) :
    unsignedValue (whole ++ style.tail fraction) = (ofDigits whole fraction).value := by
  obtain ⟨hwhole, hfraction⟩ := notMem_places h (c := 'e') rfl
  rw [tail]
  split_ifs with hnil hkeeps
  · have hzero : ∀ c ∈ whole ++ ['0'], c.isDigit = true := by
      intro c hc
      rw [List.mem_append, List.mem_singleton] at hc
      rcases hc with hc | rfl
      · exact h c (List.mem_append_left _ hc)
      · rfl
    rw [unsignedValue_of_notMem (by simp [hwhole]), mantissaValue_point hzero, hnil]
    simp [value, ofDigits, valueOfDigits]
    ring
  · rw [List.append_nil, unsignedValue_of_notMem hwhole, mantissaValue_whole h, hnil]
  · rw [unsignedValue_of_notMem (by simp [hwhole, hfraction]), mantissaValue_point h]

/-- The power of ten is read back, whether it is padded or not. -/
theorem signedValue_power (power : ℤ) :
    let size := Nat.toDigits 10 power.natAbs
    signedValue
        ((if power < 0 then '-' else '+') :: if size.length < 2 then '0' :: size else size) =
      power := by
  intro size
  have hsize : valueOfDigits (if size.length < 2 then '0' :: size else size) = power.natAbs := by
    have hzero : valueOfDigits ('0' :: size) = valueOfDigits size := rfl
    split_ifs
    · rw [hzero, valueOfDigits_toDigits]
    · exact valueOfDigits_toDigits _
  split_ifs at hsize ⊢ <;> rw [signedValue, hsize] <;> omega

/-- With an exponent, the digits count as if the point stood after the first. -/
theorem unsignedValue_scientific (d : Decimal) (power : ℤ) :
    unsignedValue (scientific d.digits power) =
      d.coefficient * 10 ^ (power + 1 - d.digits.length) := by
  obtain ⟨c, more, hdigits⟩ := List.exists_cons_of_ne_nil d.digits_ne_nil
  have hall : ∀ c' ∈ [c] ++ more, c'.isDigit = true := by
    rw [List.singleton_append, ← hdigits]
    exact fun _ ↦ isDigit_of_mem_digits
  have hvalue : (ofDigits [c] more).value = d.coefficient * 10 ^ (-(more.length : ℤ)) := by
    rw [value, ofDigits, List.singleton_append, ← hdigits, digits, valueOfDigits_toDigits]
  obtain ⟨hc, hmore⟩ := notMem_places hall (c := 'e') rfl
  have hmantissa : ∃ mantissa, 'e' ∉ mantissa ∧ mantissaValue mantissa = (ofDigits [c] more).value ∧
      scientific d.digits power = mantissa ++ 'e' :: (if power < 0 then '-' else '+') ::
        let size := Nat.toDigits 10 power.natAbs
        if size.length < 2 then '0' :: size else size := by
    rw [hdigits]
    cases more with
    | nil => exact ⟨[c], hc, mantissaValue_whole hall, rfl⟩
    | cons d more => exact ⟨[c] ++ '.' :: d :: more, by simp_all, mantissaValue_point hall, rfl⟩
  obtain ⟨mantissa, hnot, hmantissa, htext⟩ := hmantissa
  rw [htext, unsignedValue_append hnot, hmantissa, signedValue_power, hvalue, mul_assoc,
    ← zpow_add₀ (by norm_num), hdigits, List.length_cons]
  congr 2
  push_cast
  ring

/-- Whatever the style, the text of a decimal stands for the decimal. -/
theorem unsignedValue_decimal (style : NumberStyle) (d : Decimal) :
    unsignedValue (style.decimal d) = d.value := by
  rcases style.decimal_eq d with ⟨whole, fraction, hplaced, htext⟩ | ⟨-, -, htext⟩
  · rw [htext, style.unsignedValue_tail fun c ↦ hplaced.isDigit, hplaced.value_eq]
  · rw [htext, unsignedValue_scientific, value]
    congr 2
    omega

/-- The text of a decimal begins with a digit. -/
theorem exists_decimal_eq_cons (style : NumberStyle) (d : Decimal) :
    ∃ c rest, style.decimal d = c :: rest ∧ c.isDigit = true := by
  rcases style.decimal_eq d with ⟨whole, fraction, hplaced, htext⟩ | ⟨-, -, htext⟩
  · obtain ⟨c, rest, rfl⟩ := List.exists_cons_of_ne_nil hplaced.whole_ne_nil
    exact ⟨c, rest ++ style.tail fraction, htext, hplaced.isDigit (by simp)⟩
  · obtain ⟨c, more, hdigits⟩ := List.exists_cons_of_ne_nil d.digits_ne_nil
    have hc : c.isDigit = true := isDigit_of_mem_digits (hdigits ▸ List.mem_cons_self)
    rw [htext, hdigits]
    cases more with
    | nil => exact ⟨c, _, rfl, hc⟩
    | cons => exact ⟨c, _, rfl, hc⟩

theorem denotation_decimal (style : NumberStyle) (d : Decimal) :
    denotation (style.decimal d) = d.value := by
  obtain ⟨c, rest, htext, hc⟩ := style.exists_decimal_eq_cons d
  rw [← style.unsignedValue_decimal d, htext, denotation_of_isDigit hc]

end NumberStyle

end Lox
