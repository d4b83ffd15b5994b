import Lox.Proofs.Decimal.Numeral
import Lox.Proofs.Scan.Spelling

/-!
# Literals in listings

In the short form of a listing a token ends with the text of its literal, and a token without a
literal ends with `null`.  The word `null` is put in place of `None` wherever this occurs, so a text
of the program that has `None` in it is not listed as it is, and all other literals are.
-/

namespace Lox

/-! ## Replacement -/

namespace Text

/-- The word for the absence of a literal, before and after it is replaced. -/
def noneWord : List Char := ['N', 'o', 'n', 'e']

def nullWord : List Char := ['n', 'u', 'l', 'l']

/-- One occurrence of `old` after the other is replaced by `new`, each time the first one that is
left. -/
inductive Replaced (old new : List Char) : List Char → List Char → Prop
  | unchanged {text : List Char} (h : ¬old <:+: text) : Replaced old new text text
  | occurrence {before rest rest' : List Char} (hbefore : ¬old <:+: before ++ old.dropLast)
      (hrest : Replaced old new rest rest') :
      Replaced old new (before ++ old ++ rest) (before ++ new ++ rest')

namespace Replaced

variable {old new text text' : List Char} (h : Replaced old new text text')
include h

/-- A character with which no occurrence begins can stand in front. -/
theorem cons {c : Char} (hc : ¬old <+: c :: text) : Replaced old new (c :: text) (c :: text') := by
  cases h with
  | unchanged h =>
    refine .unchanged fun hoccurs ↦ ?_
    rcases List.infix_cons_iff.mp hoccurs with hbegins | hoccurs
    · exact hc hbegins
    · exact h hoccurs
  | @occurrence before rest rest' hbefore hrest =>
    -- An earlier occurrence would have to begin with `c`, and it would end before the rest.
    refine @occurrence old new (c :: before) rest rest' (fun hoccurs ↦ ?_) hrest
    have hshorter : before ++ old.dropLast <+: before ++ old ++ rest :=
      ((List.prefix_append_right_inj before).mpr old.dropLast_prefix).trans
        (List.prefix_append _ rest)
    rcases List.infix_cons_iff.mp hoccurs with hbegins | hoccurs
    · exact hc (hbegins.trans (List.cons_prefix_cons.mpr ⟨rfl, hshorter⟩))
    · exact hbefore hoccurs

variable (hlength : new.length = old.length)
include hlength

theorem length_eq : text'.length = text.length := by
  induction h with
  | unchanged => rfl
  | occurrence _ _ ih => simp only [List.length_append, hlength, ih]

/-- If the words differ, just the texts in which the old one does not occur stay as they are. -/
theorem eq_self_iff (hne : new ≠ old) : text' = text ↔ ¬old <:+: text := by
  cases h with
  | unchanged h => exact iff_of_true rfl h
  | occurrence =>
    refine iff_of_false (fun heq ↦ ?_) (not_not_intro ⟨_, _, rfl⟩)
    rw [List.append_assoc, List.append_assoc] at heq
    exact hne (List.append_inj_left (List.append_cancel_left heq) hlength)

end Replaced

theorem nullForNone_replaced (text : List Char) :
    Replaced noneWord nullWord text (Token.nullForNone text) := by
  fun_induction Token.nullForNone text with
  | case1 => exact .unchanged (by decide)
  | case2 rest ih => exact @Replaced.occurrence _ _ [] rest _ (by decide) ih
  | case3 c rest hnot ih =>
    refine ih.cons ?_
    rintro ⟨more, heq⟩
    obtain ⟨rfl, rfl⟩ := List.cons.inj heq
    exact hnot more rfl rfl

/-! ## Numbers -/

/-- The characters of numbers in listings: digits, signs, and the letters of an exponent and of what
is no finite number. -/
def inNumber (c : Char) : Bool :=
  c.isDigit || ['.', 'e', '+', '-', 'i', 'n', 'f', 'a'].contains c

theorem inNumber_of_isDigit {c : Char} (h : c.isDigit = true) : inNumber c = true := by
  rw [inNumber, h, Bool.true_or]

end Text

namespace NumberStyle

open Text

theorem inNumber_tail (style : NumberStyle) {fraction : List Char}
    (h : ∀ c ∈ fraction, inNumber c = true) : ∀ c ∈ style.tail fraction, inNumber c = true := by
  unfold tail
  split_ifs
  · exact List.all_eq_true.mp rfl
  · exact List.forall_mem_nil _
  · exact List.forall_mem_cons.mpr ⟨rfl, h⟩

theorem inNumber_scientific {digits : List Char} (h : ∀ c ∈ digits, inNumber c = true)
    (power : ℤ) : ∀ c ∈ scientific digits power, inNumber c = true := by
  have hsize : ∀ c ∈ Nat.toDigits 10 power.natAbs, inNumber c = true :=
    fun c hc ↦ inNumber_of_isDigit (Nat.isDigit_of_mem_toDigits (by decide) (by decide) hc)
  unfold scientific
  refine List.forall_mem_append.mpr ⟨?_, List.forall_mem_cons.mpr ⟨rfl,
    List.forall_mem_cons.mpr ⟨?_, ?_⟩⟩⟩
  · split
    · exact List.forall_mem_nil _
    · exact h
    · rename_i digit more _
      obtain ⟨hdigit, hmore⟩ := List.forall_mem_cons.mp h
      exact List.forall_mem_cons.mpr ⟨hdigit, List.forall_mem_cons.mpr ⟨rfl, hmore⟩⟩
  · split_ifs <;> rfl
  · split_ifs
    · exact List.forall_mem_cons.mpr ⟨rfl, hsize⟩
    · exact hsize

theorem inNumber_decimal (style : NumberStyle) (d : Decimal) :
    ∀ c ∈ style.decimal d, inNumber c = true := by
  rcases style.decimal_eq d with ⟨whole, fraction, hplaced, htext⟩ | ⟨-, -, htext⟩
  · have hplaces : ∀ c ∈ whole ++ fraction, inNumber c = true :=
      fun c hc ↦ inNumber_of_isDigit (hplaced.isDigit hc)
    obtain ⟨hwhole, hfraction⟩ := List.forall_mem_append.mp hplaces
    rw [htext]
    exact List.forall_mem_append.mpr ⟨hwhole, style.inNumber_tail hfraction⟩
  · rw [htext]
    exact inNumber_scientific
      (fun c hc ↦ inNumber_of_isDigit (Decimal.isDigit_of_mem_digits hc)) _

/-- Numbers are listed without the letters of `None`. -/
theorem inNumber_number (style : NumberStyle) (x : Float) :
    ∀ c ∈ (style.number x).toList, inNumber c = true := by
  have hsign : ∀ c ∈ (if x.toBits.toNat / Nat.pow 2 63 = 1 then ['-'] else []),
      inNumber c = true := by
    split_ifs
    · exact List.all_eq_true.mp rfl
    · exact List.forall_mem_nil _
  simp only [number]
  generalize (if x.toBits.toNat / Nat.pow 2 63 = 1 then ['-'] else []) = sign at hsign ⊢
  split_ifs
  · exact List.all_eq_true.mp rfl
  · rw [String.toList_ofList]
    exact List.forall_mem_append.mpr ⟨hsign, List.all_eq_true.mp rfl⟩
  · rw [String.toList_ofList]
    exact List.forall_mem_append.mpr ⟨hsign, style.inNumber_decimal _⟩

end NumberStyle

/-! ## Literals of lexemes -/

namespace Spells

variable {source : List Char} {literal : Atom}

theorem literal_eq_nil {kind : Kind} (h : Spells source kind literal)
    (hkind : kind ∉ [Kind.string, .number]) : literal = .nil := by
  cases h with
  | symbol | keyword | name => rfl
  | whole | fraction | text => simp at hkind

/-- A text is what stands between the quotation marks of its lexeme. -/
theorem of_string (h : Spells source .string literal) :
    ∃ body, source = '"' :: (body ++ ['"']) ∧ literal = .text (String.ofList body) := by
  cases h with
  | symbol h => exact absurd h (by decide)
  | keyword h => exact absurd (Kind.isKeyword_of_mem_keywords h).1 (by decide +kernel)
  | text => exact ⟨_, rfl, rfl⟩

/-- A number is the double nearest to what its lexeme denotes. -/
theorem of_number (h : Spells source .number literal) :
    ∃ d : Decimal, denotation source = d.value ∧ literal = .number d.toFloat := by
  cases h with
  | symbol h => exact absurd h (by decide)
  | keyword h => exact absurd (Kind.isKeyword_of_mem_keywords h).1 (by decide +kernel)
  | whole hne h =>
    refine ⟨_, ?_, rfl⟩
    have hdigits : ∀ c ∈ source ++ [], c.isDigit = true := by rwa [List.append_nil]
    obtain ⟨c, rest, rfl⟩ := List.exists_cons_of_ne_nil hne
    rw [denotation_of_isDigit (h c List.mem_cons_self),
      unsignedValue_of_notMem (notMem_places hdigits rfl).1, mantissaValue_whole hdigits]
  | @fraction whole digits hwhole _ h =>
    refine ⟨_, ?_, rfl⟩
    obtain ⟨hnot, hnot'⟩ := notMem_places h (c := 'e') rfl
    obtain ⟨c, rest, rfl⟩ := List.exists_cons_of_ne_nil hwhole
    rw [List.cons_append, denotation_of_isDigit (h c (by simp)), ← List.cons_append,
      unsignedValue_of_notMem (by simp_all), mantissaValue_point h]

end Spells

/-! ## Tokens -/

namespace Token

open Text

/-- The text of the literal of a token by itself, or `null` if there is none. -/
def literalText (token : Token) : String :=
  match token.literal with
  | .nil => "null"
  | literal => literal.listed

/-- The text of the literal of a token as the short form of a listing has it. -/
def shown (token : Token) : String :=
  String.ofList (nullForNone token.literal.listed.toList)

/-- The line of a listing for a token whose literal has the given text. -/
def lineWith (token : Token) (literal : String) : String :=
  token.kind.name ++ " " ++ token.lexeme ++ " " ++ literal

theorem shortListing_eq (token : Token) : token.shortListing = token.lineWith token.shown :=
  rfl

theorem lineWith_inj {token : Token} {literal literal' : String} :
    token.lineWith literal = token.lineWith literal' ↔ literal = literal' := by
  simp [lineWith, ← String.toList_inj]

/-- The listing has the text of the literal, with replacements. -/
theorem shown_replaced (token : Token) :
    Replaced noneWord nullWord token.literalText.toList token.shown.toList := by
  rw [shown, String.toList_ofList, literalText]
  split
  · rename_i hliteral
    rw [hliteral]
    exact .unchanged (by decide)
  · exact nullForNone_replaced _

theorem shown_eq_iff (token : Token) :
    token.shown = token.literalText ↔ ¬noneWord <:+: token.literalText.toList := by
  rw [← String.toList_inj]
  exact token.shown_replaced.eq_self_iff rfl (by decide)

theorem length_shown (token : Token) : token.shown.length = token.literalText.length := by
  rw [← String.length_toList, ← String.length_toList]
  exact token.shown_replaced.length_eq rfl

/-- A text in which `None` occurs. -/
def HoldsNone (token : Token) : Prop :=
  token.kind = .string ∧ noneWord <:+: token.literalText.toList

instance (token : Token) : Decidable token.HoldsNone :=
  inferInstanceAs (Decidable (_ ∧ _))

/-- The literal of a token and its text follow from the kind and the lexeme. -/
structure LiteralFollows (token : Token) : Prop where
  absent : token.kind ∉ [Kind.string, .number] →
    token.literal = .nil ∧ token.literalText = "null"
  text : token.kind = .string →
    token.literal = .text token.literalText ∧ token.lexeme = "\"" ++ token.literalText ++ "\""
  number : token.kind = .number → ∃ d : Decimal, denotation token.lexeme.toList = d.value ∧
    token.literal = .number d.toFloat ∧ token.literalText = NumberStyle.listing.number d.toFloat

theorem literalText_of_nil {token : Token} (h : token.literal = .nil) :
    token.literalText = "null" := by
  rw [literalText, h]

theorem Spelled.literalFollows {token : Token} (h : token.Spelled) : token.LiteralFollows where
  absent hkind := by
    have hliteral := Spells.literal_eq_nil h hkind
    exact ⟨hliteral, literalText_of_nil hliteral⟩
  text hkind := by
    rw [Spelled, hkind] at h
    obtain ⟨body, hlexeme, hliteral⟩ := h.of_string
    have htext : token.literalText = String.ofList body := by rw [literalText, hliteral]; rfl
    refine ⟨htext ▸ hliteral, ?_⟩
    rw [← String.toList_inj, hlexeme, htext]
    simp
  number hkind := by
    rw [Spelled, hkind] at h
    obtain ⟨d, hlexeme, hliteral⟩ := h.of_number
    exact ⟨d, hlexeme, hliteral, by rw [literalText, hliteral]; rfl⟩

/-- The literals of all tokens of a source follow from their lexemes. -/
theorem literalFollows_of_mem_scan {source : String} {token : Token}
    (h : token ∈ (scan source).tokens) : token.LiteralFollows := by
  rcases scan_spelled h with hspelled | rfl
  · exact hspelled.literalFollows
  · refine ⟨fun _ ↦ ⟨rfl, rfl⟩, fun hkind ↦ ?_, fun hkind ↦ ?_⟩
    · cases hkind
    · cases hkind

namespace LiteralFollows

variable {token : Token} (h : token.LiteralFollows)
include h

/-- Unless it is a text, a literal is written with the characters of numbers or as `null`. -/
theorem notMem_literalText (hkind : token.kind ≠ .string) {c : Char} (hc : inNumber c = false)
    (hnull : c ∉ nullWord) : c ∉ token.literalText.toList := by
  by_cases hnumber : token.kind = .number
  · obtain ⟨d, -, -, htext⟩ := h.number hnumber
    rw [htext]
    intro hmem
    rw [NumberStyle.listing.inNumber_number _ c hmem] at hc
    cases hc
  · rw [(h.absent (by simp [hkind, hnumber])).2]
    exact hnull

theorem shown_eq_of_ne_string (hkind : token.kind ≠ .string) :
    token.shown = token.literalText := by
  refine token.shown_eq_iff.mpr fun hoccurs ↦ ?_
  exact h.notMem_literalText hkind (c := 'N') (by decide) (by decide)
    (hoccurs.subset List.mem_cons_self)

/-- Just the texts in which `None` occurs are not shown as they are. -/
theorem shown_eq_literalText_iff : token.shown = token.literalText ↔ ¬token.HoldsNone := by
  by_cases hkind : token.kind = .string
  · rw [token.shown_eq_iff]
    simp only [HoldsNone, hkind, true_and]
  · exact iff_of_true (h.shown_eq_of_ne_string hkind) fun hboth ↦ hkind hboth.1

/-- A text is shown with as many characters as it has. -/
theorem length_shown_of_string (hkind : token.kind = .string) :
    token.shown.length = token.lexeme.length - 2 := by
  have hquote : "\"".length = 1 := rfl
  rw [token.length_shown, (h.text hkind).2, String.length_append, String.length_append, hquote]
  omega

end LiteralFollows

end Token

end Lox
