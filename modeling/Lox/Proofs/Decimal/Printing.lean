import Lox.Value
import Lox.Proofs.Decimal.Fewest
import Lox.Proofs.Decimal.Numeral
import Lox.Proofs.Scan.Writing

/-!
# Printed numbers read back

Every finite double is printed as digits, with a point and more digits just if it is not a whole
number, after a minus if its sign is set.  Scanning gives the magnitude of the double back, exactly,
so no two doubles are printed alike.
-/

namespace Lox

open Decimal (ofDigits shortest)
open Double (rational magnitude)

/-- A number as a program has it: digits, and digits after a point if there are any.  A minus before
it is a sign of its own. -/
structure Numeral where
  negative : Bool
  whole : List Char
  fraction : List Char
  whole_ne_nil : whole ≠ []
  isDigit : ∀ c ∈ whole ++ fraction, c.isDigit = true
  /-- No zero stands in front of another digit before the point. -/
  eq_of_head? : whole.head? = some '0' → whole = ['0']

namespace Numeral

def unsigned (n : Numeral) : List Char :=
  n.whole ++ if n.fraction = [] then [] else '.' :: n.fraction

def text (n : Numeral) : String :=
  String.ofList ((if n.negative then ['-'] else []) ++ n.unsigned)

def magnitude (n : Numeral) : Float :=
  (ofDigits n.whole n.fraction).toFloat

/-! ## Scanning -/

/-- The digits of a numeral are one lexeme. -/
theorem isWhole_unsigned (n : Numeral) : Cut.IsWhole n.unsigned .number (.number n.magnitude) := by
  rw [unsigned, magnitude]
  split_ifs with hfraction
  · rw [List.append_nil, hfraction]
    exact Cut.isWhole_digits n.whole_ne_nil fun c hc ↦ n.isDigit c (List.mem_append_left _ hc)
  · exact Cut.isWhole_fraction n.whole_ne_nil hfraction n.isDigit

theorem yields_unsigned (n : Numeral) (mark : Mark) :
    yields mark n.unsigned =
      [.token
        ⟨.number, String.ofList n.unsigned, .number n.magnitude, mark.line, mark.offset⟩] := by
  obtain ⟨c, rest, hsource, -, hfirst⟩ := n.isWhole_unsigned
  rw [hsource, yields_cons, hfirst, yields_nil, hsource]
  rfl

/-- A minus is a lexeme whatever follows it. -/
theorem first_minus (rest : List Char) :
    Cut.first '-' rest = ⟨.lexeme .minus .nil, ['-'], rest⟩ := by
  cases rest with
  | nil => rfl
  | cons d rest =>
    have hpair : Kind.pair? '-' d = none := rfl
    change Cut.symbol '-' (d :: rest) = _
    rw [Cut.symbol, hpair]
    rfl

/-- A numeral is read as its magnitude, after a minus if it has one. -/
theorem scan_text (n : Numeral) :
    (scan n.text).errors = [] ∧
      (scan n.text).tokens.map (fun token ↦ (token.kind, token.literal)) =
        (if n.negative then [(Kind.minus, Atom.nil)] else []) ++
          [(.number, .number n.magnitude), (.eof, .nil)] := by
  rw [scan_errors_eq, scan_tokens_eq, text, String.toList_ofList]
  split_ifs
  · rw [List.singleton_append, yields_cons, first_minus, yields_unsigned]
    exact ⟨rfl, rfl⟩
  · rw [List.nil_append, yields_unsigned]
    exact ⟨rfl, rfl⟩

end Numeral

/-! ## Doubles as text -/

/-- A double is a whole number. -/
theorem Double.rational_eq_intCast_iff {x : Float} (h : x.isFinite = true) :
    (∃ k : ℤ, rational x = k) ↔ ∃ n : ℕ, magnitude x = n := by
  rw [← abs_rational h]
  constructor
  · rintro ⟨k, hk⟩
    exact ⟨k.natAbs, by rw [hk, Nat.cast_natAbs, Int.cast_abs]⟩
  · rintro ⟨n, hn⟩
    rcases eq_or_eq_neg_of_abs_eq hn with heq | heq
    · exact ⟨n, heq⟩
    · exact ⟨-n, by rw [heq, Int.cast_neg, Int.cast_natCast]⟩

section

variable {x : Float} (h : x.isFinite = true)
include h

/-- A double is written as the shortest decimal for its magnitude, after a minus if its sign is set.
-/
theorem NumberStyle.number_eq (style : NumberStyle) : style.number x =
    String.ofList
      ((if 2 ^ 63 ≤ x.toBits.toNat then ['-'] else []) ++ style.decimal (shortest x.abs)) := by
  have hsign : x.toBits.toNat / Nat.pow 2 63 = 1 ↔ 2 ^ 63 ≤ x.toBits.toNat := by
    have hlt : x.toBits.toNat < 2 ^ 64 := x.toBits.toBitVec.isLt
    change x.toBits.toNat / 2 ^ 63 = 1 ↔ _
    omega
  simp only [number, Double.isNaN_eq_false h, Double.isInf_eq_false h, hsign, Bool.false_eq_true,
    if_false]

theorem Double.toNat_abs_lt : x.abs.toBits.toNat < 2 ^ 63 := by
  rw [toNat_abs h]
  exact Nat.mod_lt _ (by norm_num)

/-- What is printed for a double is a numeral that stands for it. -/
theorem exists_numeral :
    ∃ n : Numeral, NumberStyle.plain.number x = n.text ∧
      n.negative = decide (2 ^ 63 ≤ x.toBits.toNat) ∧
      (n.fraction = [] ↔ ∃ k : ℤ, rational x = k) ∧ n.magnitude = x.abs := by
  have hfinite := Double.isFinite_abs h
  have hsign := Double.toNat_abs_lt h
  rcases NumberStyle.plain.decimal_eq (shortest x.abs) with
    ⟨whole, fraction, hplaced, htext⟩ | ⟨-, hexponent, -⟩
  · let n : Numeral := ⟨decide (2 ^ 63 ≤ x.toBits.toNat), whole, fraction, hplaced.whole_ne_nil,
      fun _ ↦ hplaced.isDigit, hplaced.eq_of_head?⟩
    refine ⟨n, ?_, rfl, ?_, ?_⟩
    · rw [NumberStyle.plain.number_eq h, htext, Numeral.text, Numeral.unsigned]
      simp [n, NumberStyle.tail, NumberStyle.plain]
    · have hmagnitude : magnitude x.abs = magnitude x := by
        rw [magnitude, magnitude, Double.binaryParts_abs h]
      rw [Double.rational_eq_intCast_iff h, ← hmagnitude,
        ← Decimal.shortest_whole_iff hfinite hsign, ← hplaced.fraction_eq_nil_iff]
    · exact (Decimal.toFloat_eq_of_value_eq hplaced.value_eq).trans
        (Decimal.toFloat_shortest hfinite hsign)
  · cases hexponent

/-- What is printed for a double is read as the double, after a minus if its sign is set. -/
theorem scan_number :
    (scan (NumberStyle.plain.number x)).errors = [] ∧
      (scan (NumberStyle.plain.number x)).tokens.map (fun token ↦ (token.kind, token.literal)) =
        (if 2 ^ 63 ≤ x.toBits.toNat then [(Kind.minus, Atom.nil)] else []) ++
          [(.number, .number x.abs), (.eof, .nil)] := by
  obtain ⟨n, htext, hnegative, -, hmagnitude⟩ := exists_numeral h
  have hscan := n.scan_text
  simp only [hnegative, decide_eq_true_eq, hmagnitude] at hscan
  rwa [htext]

/-- Different doubles are printed differently. -/
theorem number_injective {y : Float} (hy : y.isFinite = true)
    (heq : NumberStyle.plain.number y = NumberStyle.plain.number x) : y = x := by
  have htokens := (scan_number hy).2
  rw [heq, (scan_number h).2] at htokens
  have hbits : (2 ^ 63 ≤ y.toBits.toNat ↔ 2 ^ 63 ≤ x.toBits.toNat) ∧ y.abs = x.abs := by
    split_ifs at htokens with hxsign hysign hysign
    · exact ⟨iff_of_true hysign hxsign, by simpa using htokens.symm⟩
    · cases htokens
    · cases htokens
    · exact ⟨iff_of_false hysign hxsign, by simpa using htokens.symm⟩
  have habs := congrArg (·.toBits.toNat) hbits.2
  simp only [Double.toNat_abs h, Double.toNat_abs hy] at habs
  have hlt : x.toBits.toNat < 2 ^ 64 := x.toBits.toBitVec.isLt
  have hlt' : y.toBits.toNat < 2 ^ 64 := y.toBits.toBitVec.isLt
  exact Double.eq_of_toNat (by omega)

theorem denotation_number (style : NumberStyle) : denotation (style.number x).toList =
    if 2 ^ 63 ≤ x.toBits.toNat then -(shortest x.abs).value else (shortest x.abs).value := by
  rw [style.number_eq h, String.toList_ofList]
  split_ifs
  · rw [List.singleton_append, denotation, style.unsignedValue_decimal]
  · rw [List.nil_append, style.denotation_decimal]

end

/-- Printed numbers read back exactly.  A finite double is printed as digits, with a point and more
digits just if it is not a whole number and no zero in front of another digit, after a minus if its
sign is set.  The text stands for the same number as the one in a listing, which may have an
exponent; it is a decimal of at most seventeen digits, and none with fewer is read as the double.
Scanning the text finds no fault and gives the magnitude of the double back, after a minus just if
its sign is set.  So no other finite double is printed alike. -/
theorem printed_number_reads_back {x : Float} (h : x.isFinite = true) :
    let text := (Value.atom (.number x)).display
    (∃ n : Numeral, text = n.text ∧ n.negative = decide (2 ^ 63 ≤ x.toBits.toNat) ∧
        (n.fraction = [] ↔ ∃ k : ℤ, rational x = k)) ∧
      denotation text.toList = denotation (Atom.number x).listing.toList ∧
      (∃ d : Decimal, d.IsShortest x.abs ∧ d.digits.length ≤ 17 ∧
        denotation text.toList = if 2 ^ 63 ≤ x.toBits.toNat then -d.value else d.value) ∧
      (scan text).errors = [] ∧
      (scan text).tokens.map (fun token ↦ (token.kind, token.literal)) =
        (if 2 ^ 63 ≤ x.toBits.toNat then [(Kind.minus, Atom.nil)] else []) ++
          [(.number, .number x.abs), (.eof, .nil)] ∧
      ∀ y : Float, y.isFinite = true → (Value.atom (.number y)).display = text → y = x := by
  intro text
  have hfinite := Double.isFinite_abs h
  have hsign := Double.toNat_abs_lt h
  have hdenotation : denotation text.toList = _ := denotation_number h NumberStyle.plain
  obtain ⟨n, htext, hnegative, hfraction, -⟩ := exists_numeral h
  obtain ⟨herrors, htokens⟩ := scan_number h
  exact ⟨⟨n, htext, hnegative, hfraction⟩,
    hdenotation.trans (denotation_number h NumberStyle.listing).symm,
    ⟨shortest x.abs, Decimal.isShortest_shortest hfinite hsign,
      Decimal.length_shortest_le_seventeen hfinite hsign, hdenotation⟩,
    herrors, htokens, fun _ ↦ number_injective h⟩

/-- The double nearest to minus the twenty-third power of ten is not that power, but it is listed
and printed as if it were, and read back as it is. -/
theorem large_number_reads_back :
    let x := Float.ofBits 0xC4B52D02C7E14AF6
    let text := "-100000000000000000000000"
    x.isFinite = true ∧ (Value.atom (.number x)).display = text ∧
      (Atom.number x).listing = "-1e+23" ∧
      denotation text.toList = denotation "-1e+23".toList ∧ (scan text).errors = [] ∧
      (scan text).tokens.map (fun token ↦ (token.kind, token.literal)) =
        [(.minus, .nil), (.number, .number x.abs), (.eof, .nil)] := by
  intro x text
  have hfinite : x.isFinite = true := by decide +kernel
  have htext : (Value.atom (.number x)).display = text := by decide +kernel
  have hlisting : (Atom.number x).listing = "-1e+23" := by decide +kernel
  have hsign : 2 ^ 63 ≤ x.toBits.toNat := by decide +kernel
  obtain ⟨-, hdenotation, -, herrors, htokens, -⟩ := printed_number_reads_back hfinite
  rw [htext] at hdenotation herrors htokens
  rw [hlisting] at hdenotation
  rw [if_pos hsign] at htokens
  exact ⟨hfinite, htext, hlisting, hdenotation, herrors, htokens⟩

end Lox
