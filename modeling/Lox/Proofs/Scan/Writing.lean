import Lox.Proofs.Scan.Join
import Mathlib

/-!
# Scanning undoes writing

A program is written down as lexemes with layout between them.  Each lexeme has a spelling that the
kind and the literal of its token account for, and layout is made of blanks and of comments that end
with their line.  Whatever the layout, scanning such a text gives back the tokens that were written,
each at the place where its lexeme stands, and finds no fault.
-/

namespace Lox

/-! ## Spelling -/

/-- The characters that spell a token of the given kind with the given literal. -/
inductive Spells : List Char → Kind → Atom → Prop
  /-- A symbol is spelled by its mark; the marks of the other kinds are longer. -/
  | symbol {kind : Kind} (h : kind.mark.length ≤ 2) : Spells kind.mark.toList kind .nil
  | keyword {word : String} {kind : Kind} (h : (word, kind) ∈ Kind.keywords) :
      Spells word.toList kind .nil
  /-- A word that is no keyword is a name. -/
  | name {c : Char} {rest : List Char} (hc : Text.startsName c = true)
      (hrest : ∀ d ∈ rest, Text.continuesName d = true)
      (h : ∀ entry ∈ Kind.keywords, entry.1 ≠ String.ofList (c :: rest)) :
      Spells (c :: rest) .identifier .nil
  | whole {digits : List Char} (hne : digits ≠ []) (h : ∀ c ∈ digits, c.isDigit = true) :
      Spells digits .number (.number (Decimal.ofDigits digits []).toFloat)
  | fraction {whole digits : List Char} (hwhole : whole ≠ []) (hdigits : digits ≠ [])
      (h : ∀ c ∈ whole ++ digits, c.isDigit = true) :
      Spells (whole ++ '.' :: digits) .number (.number (Decimal.ofDigits whole digits).toFloat)
  | text {body : List Char} (h : '"' ∉ body) :
      Spells ('"' :: (body ++ ['"'])) .string (.text (String.ofList body))

/-- The keywords that are recognised are those of the table. -/
theorem Kind.keyword?_eq_some_iff {word : String} {kind : Kind} :
    keyword? word = some kind ↔ (word, kind) ∈ keywords := by
  have hkeywords : keywords = [("and", .kwAnd), ("class", .kwClass), ("else", .kwElse),
      ("false", .kwFalse), ("for", .kwFor), ("fun", .kwFun), ("if", .kwIf), ("nil", .kwNil),
      ("or", .kwOr), ("print", .kwPrint), ("return", .kwReturn), ("super", .kwSuper),
      ("this", .kwThis), ("true", .kwTrue), ("var", .kwVar), ("while", .kwWhile)] := by
    decide +kernel
  rw [hkeywords]
  unfold keyword?
  split <;> simp_all [eq_comm]

/-! ## Classes of characters -/

namespace Text

theorem toNat_of_continuesName {c : Char} (h : continuesName c = true) :
    0x21 ≤ c.toNat ∧ c.toNat ≤ 0x7E := by
  simp only [continuesName, startsName, Char.isAlpha, Char.isUpper, Char.isLower, Char.isDigit,
    Bool.or_eq_true, Bool.and_eq_true, decide_eq_true_eq, beq_iff_eq, ge_iff_le,
    UInt32.le_iff_toNat_le] at h
  rcases h with ((⟨hle, hge⟩ | ⟨hle, hge⟩) | rfl) | ⟨hle, hge⟩
  · exact ⟨Nat.le_trans (by decide) hle, Nat.le_trans hge (by decide)⟩
  · exact ⟨Nat.le_trans (by decide) hle, Nat.le_trans hge (by decide)⟩
  · decide
  · exact ⟨Nat.le_trans (by decide) hle, Nat.le_trans hge (by decide)⟩

theorem isDigit_of_startsName {c : Char} (h : startsName c = true) : c.isDigit = false := by
  simp only [startsName, Char.isAlpha, Char.isUpper, Char.isLower, Bool.or_eq_true,
    Bool.and_eq_true, decide_eq_true_eq, beq_iff_eq, ge_iff_le, UInt32.le_iff_toNat_le] at h
  simp only [Char.isDigit, Bool.and_eq_false_iff, decide_eq_false_iff_not, ge_iff_le,
    UInt32.le_iff_toNat_le]
  right
  rcases h with (⟨hle, -⟩ | ⟨hle, -⟩) | rfl
  · exact Nat.not_le.mpr (Nat.lt_of_lt_of_le (by decide) hle)
  · exact Nat.not_le.mpr (Nat.lt_of_lt_of_le (by decide) hle)
  · decide

theorem isBlank_of_continuesName {c : Char} (h : continuesName c = true) : isBlank c = false := by
  have hrange := toNat_of_continuesName h
  simp only [isBlank, blankRuns, List.any_cons, List.any_nil, Bool.or_false, Bool.or_eq_false_iff,
    Bool.and_eq_false_iff, decide_eq_false_iff_not]
  omega

end Text

/-- No lexeme but a text goes on with a blank. -/
theorem separates_of_isBlank {c : Char} (h : Text.isBlank c = true) : Separates c where
  digit := by
    by_contra hdigit
    have hname : Text.continuesName c = true := by simp_all [Text.continuesName]
    rw [Text.isBlank_of_continuesName hname] at h
    cases h
  name := by
    by_contra hname
    rw [Text.isBlank_of_continuesName (Bool.not_eq_false _ ▸ hname)] at h
    cases h
  point := by
    rintro rfl
    exact absurd h (by decide)
  slash := by
    rintro rfl
    exact absurd h (by decide)
  equal := by
    rintro rfl
    exact absurd h (by decide)

def Kind.symbol? : List Char → Option Kind
  | [c] => single? c
  | [c, d] => pair? c d
  | _ => none

theorem Kind.symbol?_mark {kind : Kind} (h : kind.mark.length ≤ 2) :
    symbol? kind.mark.toList = some kind := by
  revert h
  cases kind <;> decide

/-- The characters of the symbols share no property that none of them has. -/
theorem Kind.single?_eq_none {p : Char → Bool}
    (hp : ['(', ')', '\x7b', '\x7d', ',', '.', '-', '+', ';', '*', '!', '=', '>', '<', '/'].any p =
      false) {c : Char} (h : p c = true) : single? c = none := by
  unfold single?
  split <;> simp_all

/-! ## Cuts of spellings -/

namespace Cut

/-- A pair begins with a character that is a symbol on its own. -/
theorem first_of_single?_eq_none {c : Char} (h : Kind.single? c = none) (rest : List Char) :
    ¬OpensComment c rest ∧ first c rest = other c rest := by
  have hcomment : ¬OpensComment c rest := by
    rintro ⟨_, rfl, -⟩
    cases h
  have hpair (d : Char) : Kind.pair? c d = none := by
    unfold Kind.pair?
    split <;> first | rfl | cases h
  refine ⟨hcomment, ?_⟩
  rw [first_of_not_opensComment hcomment]
  cases rest with
  | nil => simp only [symbol, single, h]
  | cons d rest => simp only [symbol, single, h, hpair]

theorem first_of_isBlank {c : Char} (h : Text.isBlank c = true) (rest : List Char) :
    first c rest = ⟨.layout, [c], rest⟩ := by
  have hquote : c ≠ '"' := by
    rintro rfl
    exact absurd h (by decide)
  rw [(first_of_single?_eq_none (Kind.single?_eq_none rfl h) rest).2, other, if_neg hquote,
    if_pos h]

/-- The source is cut as one lexeme, and nothing is left. -/
def IsWhole (source : List Char) (kind : Kind) (literal : Atom) : Prop :=
  ∃ c rest, source = c :: rest ∧ ¬OpensComment c rest ∧
    first c rest = ⟨.lexeme kind literal, source, []⟩

theorem isWhole_word {c : Char} {rest : List Char} (hc : Text.startsName c = true)
    (hrest : ∀ d ∈ rest, Text.continuesName d = true) :
    IsWhole (c :: rest) ((Kind.keyword? (String.ofList (c :: rest))).getD .identifier) .nil := by
  have hcontinues : Text.continuesName c = true := by simp [Text.continuesName, hc]
  have hall : ∀ d ∈ c :: rest, Text.continuesName d = true :=
    List.forall_mem_cons.mpr ⟨hcontinues, hrest⟩
  have hquote : c ≠ '"' := by
    rintro rfl
    exact absurd hc (by decide)
  have hblank : ¬Text.isBlank c = true := by simp [Text.isBlank_of_continuesName hcontinues]
  have hdigit : ¬c.isDigit = true := by simp [Text.isDigit_of_startsName hc]
  obtain ⟨hcomment, hfirst⟩ := first_of_single?_eq_none (Kind.single?_eq_none rfl hc) rest
  refine ⟨c, rest, rfl, hcomment, ?_⟩
  rw [hfirst, other, if_neg hquote, if_neg hblank, if_neg hdigit, if_pos hc, word,
    List.takeWhile_eq_self_iff.mpr hall, List.dropWhile_eq_nil_iff.mpr hall]

theorem first_of_isDigit {c : Char} (h : c.isDigit = true) (rest : List Char) :
    ¬OpensComment c rest ∧ first c rest = number (c :: rest) := by
  have hcontinues : Text.continuesName c = true := by simp [Text.continuesName, h]
  have hquote : c ≠ '"' := by
    rintro rfl
    exact absurd h (by decide)
  have hblank : ¬Text.isBlank c = true := by simp [Text.isBlank_of_continuesName hcontinues]
  obtain ⟨hcomment, hfirst⟩ := first_of_single?_eq_none (Kind.single?_eq_none rfl h) rest
  refine ⟨hcomment, ?_⟩
  rw [hfirst, other, if_neg hquote, if_neg hblank, if_pos h]

theorem isWhole_digits {digits : List Char} (hne : digits ≠ [])
    (h : ∀ c ∈ digits, c.isDigit = true) :
    IsWhole digits .number (.number (Decimal.ofDigits digits []).toFloat) := by
  obtain ⟨c, rest, rfl⟩ := List.exists_cons_of_ne_nil hne
  obtain ⟨hcomment, hfirst⟩ := first_of_isDigit (h c List.mem_cons_self) rest
  refine ⟨c, rest, rfl, hcomment, ?_⟩
  rw [hfirst, number, List.takeWhile_eq_self_iff.mpr h, List.dropWhile_eq_nil_iff.mpr h, fraction]
  intro d more hmore
  cases hmore

/-- Digits on both sides of a point are one number. -/
theorem isWhole_fraction {whole digits : List Char} (hwhole : whole ≠ []) (hdigits : digits ≠ [])
    (h : ∀ c ∈ whole ++ digits, c.isDigit = true) :
    IsWhole (whole ++ '.' :: digits) .number (.number (Decimal.ofDigits whole digits).toFloat) := by
  obtain ⟨hall, hall'⟩ := List.forall_mem_append.mp h
  have hpoint : Char.isDigit '.' = false := by decide
  have hnumber : number (whole ++ '.' :: digits) = fraction whole ('.' :: digits) := by
    rw [number, takeWhile_append_stop hpoint, dropWhile_append_stop hpoint,
      List.takeWhile_eq_self_iff.mpr hall, List.dropWhile_eq_nil_iff.mpr hall, List.nil_append]
  obtain ⟨c, rest, rfl⟩ := List.exists_cons_of_ne_nil hwhole
  obtain ⟨d, more, rfl⟩ := List.exists_cons_of_ne_nil hdigits
  obtain ⟨hcomment, hfirst⟩ :=
    first_of_isDigit (hall c List.mem_cons_self) (rest ++ '.' :: d :: more)
  refine ⟨c, rest ++ '.' :: d :: more, rfl, hcomment, ?_⟩
  rw [hfirst, ← List.cons_append, hnumber, fraction, if_pos (hall' d List.mem_cons_self),
    List.takeWhile_eq_self_iff.mpr hall', List.dropWhile_eq_nil_iff.mpr hall']

/-- A text ends at the next quotation mark. -/
theorem first_quotation {body : List Char} (h : '"' ∉ body) (rest : List Char) :
    first '"' (body ++ '"' :: rest) =
      ⟨.lexeme .string (.text (String.ofList body)), '"' :: (body ++ ['"']), rest⟩ := by
  have hall := forall_bne_of_not_mem h
  have hquote : ('"' != '"') = false := rfl
  rw [first_quote, text, takeWhile_append_stop (p := (· != '"')) hquote,
    dropWhile_append_stop (p := (· != '"')) hquote, List.takeWhile_eq_self_iff.mpr hall,
    List.dropWhile_eq_nil_iff.mpr hall]
  rfl

theorem isWhole_text {body : List Char} (h : '"' ∉ body) :
    IsWhole ('"' :: (body ++ ['"'])) .string (.text (String.ofList body)) := by
  have hcomment : ¬OpensComment '"' (body ++ ['"']) := by
    rintro ⟨_, heq, -⟩
    cases heq
  exact ⟨'"', body ++ ['"'], rfl, hcomment, first_quotation h []⟩

/-- The characters of a symbol are one lexeme, however they could be divided. -/
theorem isWhole_symbol {source : List Char} {kind : Kind} (h : Kind.symbol? source = some kind) :
    IsWhole source kind .nil := by
  match source with
  | [c] =>
    have hcomment : ¬OpensComment c [] := by
      rintro ⟨_, -, heq⟩
      cases heq
    refine ⟨c, [], rfl, hcomment, ?_⟩
    have hsingle : Kind.single? c = some kind := h
    rw [first_of_not_opensComment hcomment]
    simp only [symbol, single, hsingle]
  | [c, d] =>
    have hpair : Kind.pair? c d = some kind := h
    have hcomment : ¬OpensComment c [d] := by
      rintro ⟨_, rfl, -⟩
      cases hpair
    refine ⟨c, [d], rfl, hcomment, ?_⟩
    rw [first_of_not_opensComment hcomment]
    simp only [symbol, hpair]

/-- Every spelling is cut as one lexeme. -/
theorem isWhole_of_spells {source : List Char} {kind : Kind} {literal : Atom}
    (h : Spells source kind literal) : IsWhole source kind literal := by
  cases h with
  | symbol h => exact isWhole_symbol (Kind.symbol?_mark h)
  | @keyword word kind h =>
    have hkind := Kind.keyword?_eq_some_iff.mpr h
    have hword : ∃ c rest, word.toList = c :: rest ∧ Text.startsName c = true ∧
        ∀ d ∈ rest, Text.continuesName d = true := by
      unfold Kind.keyword? at hkind
      split at hkind
      case h_17 => cases hkind
      all_goals exact ⟨_, _, rfl, rfl, List.all_eq_true.mp rfl⟩
    obtain ⟨c, rest, hlist, hc, hrest⟩ := hword
    have hwhole := isWhole_word hc hrest
    rwa [← hlist, String.ofList_toList, hkind] at hwhole
  | @name c rest hc hrest h =>
    have hnone : Kind.keyword? (String.ofList (c :: rest)) = none := by
      rw [Option.eq_none_iff_forall_ne_some]
      intro kind heq
      exact h _ (Kind.keyword?_eq_some_iff.mp heq) rfl
    have hword := isWhole_word hc hrest
    rwa [hnone] at hword
  | whole hne h => exact isWhole_digits hne h
  | fraction hwhole hdigits h => exact isWhole_fraction hwhole hdigits h
  | text h => exact isWhole_text h

def endsLexeme (rest : List Char) : Bool :=
  rest.head?.all Text.isBlank

/-- A lexeme that is cut as a whole is cut alike before a blank. -/
theorem IsWhole.first {source : List Char} {kind : Kind} {literal : Atom}
    (h : IsWhole source kind literal) {rest : List Char} (hrest : endsLexeme rest = true) :
    ∃ c more, source = c :: more ∧
      Cut.first c (more ++ rest) = ⟨.lexeme kind literal, source, rest⟩ := by
  obtain ⟨c, more, hsource, hcomment, hfirst⟩ := h
  refine ⟨c, more, hsource, ?_⟩
  cases rest with
  | nil => rw [List.append_nil, hfirst]
  | cons stop after =>
    have hstop := separates_of_isBlank hrest
    have hreading : (Cut.first c more).reading ≠ .unterminated := by
      rw [hfirst]
      nofun
    rw [first_followedBy hstop hreading after (.inr hcomment), hfirst]
    rfl

end Cut

/-! ## Layout -/

/-- Blanks, and comments closed by a line feed. -/
inductive Layout : List Char → Prop
  | nil : Layout []
  | blank {c : Char} {rest : List Char} (h : Text.isBlank c = true) (hrest : Layout rest) :
      Layout (c :: rest)
  | comment {body rest : List Char} (h : '\n' ∉ body) (hrest : Layout rest) :
      Layout ('/' :: '/' :: (body ++ '\n' :: rest))

theorem yields_blank {c : Char} (h : Text.isBlank c = true) (mark : Mark) (rest : List Char) :
    yields mark (c :: rest) = yields (mark.after [c]) rest := by
  rw [yields_cons, Cut.first_of_isBlank h]
  rfl

/-- Layout yields nothing. -/
theorem yields_layout {layout : List Char} (h : Layout layout) (mark : Mark) (rest : List Char) :
    yields mark (layout ++ rest) = yields (mark.after layout) rest := by
  induction h generalizing mark with
  | nil => rw [List.nil_append, Mark.after_nil]
  | @blank c more hblank hmore ih =>
    calc yields mark (c :: more ++ rest)
        = yields (mark.after [c]) (more ++ rest) := yields_blank hblank mark (more ++ rest)
      _ = yields ((mark.after [c]).after more) rest := ih (mark.after [c])
      _ = yields (mark.after (c :: more)) rest := by rw [← Mark.after_append]; rfl
  | @comment body more hbody hmore ih =>
    have hall : ∀ c ∈ '/' :: body, (c != '\n') = true := by
      intro c hc
      rw [bne_iff_ne]
      rintro rfl
      rcases List.mem_cons.mp hc with heq | hmem
      · cases heq
      · exact hbody hmem
    have hfeed : ('\n' != '\n') = false := rfl
    have hfirst : Cut.first '/' ('/' :: (body ++ '\n' :: (more ++ rest))) =
        ⟨.layout, '/' :: '/' :: body, '\n' :: (more ++ rest)⟩ := by
      rw [Cut.first_comment, Cut.comment, ← List.cons_append,
        takeWhile_append_stop (p := (· != '\n')) hfeed,
        dropWhile_append_stop (p := (· != '\n')) hfeed, List.takeWhile_eq_self_iff.mpr hall,
        List.dropWhile_eq_nil_iff.mpr hall, List.nil_append]
    calc yields mark ('/' :: '/' :: (body ++ '\n' :: more) ++ rest)
        = yields mark ('/' :: '/' :: (body ++ '\n' :: (more ++ rest))) := by simp
      _ = yields (mark.after ('/' :: '/' :: body)) ('\n' :: (more ++ rest)) := by
          rw [yields_cons, hfirst]
          rfl
      _ = yields ((mark.after ('/' :: '/' :: body)).after ['\n']) (more ++ rest) :=
          yields_blank (by decide) _ _
      _ = yields (((mark.after ('/' :: '/' :: body)).after ['\n']).after more) rest := ih _
      _ = yields (mark.after ('/' :: '/' :: (body ++ '\n' :: more))) rest := by
          rw [← Mark.after_append, ← Mark.after_append]
          simp

/-! ## Writing -/

/-- A lexeme as it is written down, with the layout behind it. -/
structure Written where
  text : List Char
  kind : Kind
  literal : Atom
  spelled : Spells text kind literal
  gap : List Char
  layout : Layout gap
  /-- A comment does not follow the lexeme at once. -/
  ends : Cut.endsLexeme gap = true

namespace Written

def characters (items : List Written) : List Char :=
  items.flatMap fun item ↦ item.text ++ item.gap

def token (item : Written) (mark : Mark) : Token :=
  ⟨item.kind, String.ofList item.text, item.literal, mark.line, mark.offset⟩

def tokens (mark : Mark) : List Written → List Token
  | [] => []
  | item :: items => item.token mark :: tokens (mark.after (item.text ++ item.gap)) items

theorem characters_cons (item : Written) (items : List Written) :
    characters (item :: items) = item.text ++ (item.gap ++ characters items) := by
  simp [characters]

theorem length_tokens (mark : Mark) (items : List Written) :
    (tokens mark items).length = items.length := by
  induction items generalizing mark with
  | nil => rfl
  | cons item items ih => simp [tokens, ih]

/-- Every token stands where what is written before it ends. -/
theorem getElem?_tokens (mark : Mark) (items : List Written) (i : Nat) :
    (tokens mark items)[i]? =
      items[i]?.map fun item ↦ item.token (mark.after (characters (items.take i))) := by
  induction items generalizing mark i with
  | nil => rfl
  | cons item items ih =>
    cases i with
    | zero => simp [tokens, characters]
    | succ i =>
      simp only [tokens, List.getElem?_cons_succ, List.take_succ_cons, ih, characters_cons]
      simp only [← Mark.after_append, List.append_assoc]

/-- Lexemes with layout between them yield their tokens. -/
theorem yields_characters (mark : Mark) {items : List Written}
    (hgaps : ∀ item ∈ items.dropLast, item.gap ≠ []) :
    yields mark (characters items) = (tokens mark items).map .token := by
  induction items generalizing mark with
  | nil => exact yields_nil mark
  | cons item items ih =>
    have hends : Cut.endsLexeme (item.gap ++ characters items) = true := by
      by_cases hgap : item.gap = []
      · cases items with
        | nil =>
          rw [hgap]
          rfl
        | cons next items => exact absurd hgap (hgaps item List.mem_cons_self)
      · obtain ⟨stop, more, heq⟩ := List.exists_cons_of_ne_nil hgap
        have hstop := item.ends
        rw [heq] at hstop ⊢
        exact hstop
    have htail : ∀ next ∈ items.dropLast, next.gap ≠ [] := by
      intro next hnext
      cases items with
      | nil => cases hnext
      | cons first items => exact hgaps next (List.mem_cons_of_mem item hnext)
    obtain ⟨c, more, htext, hfirst⟩ := (Cut.isWhole_of_spells item.spelled).first hends
    calc yields mark (characters (item :: items))
        = yields mark (c :: (more ++ (item.gap ++ characters items))) := by
          rw [characters_cons, htext]
          rfl
      _ = .token (item.token mark) ::
            yields (mark.after item.text) (item.gap ++ characters items) := by
          rw [yields_cons, hfirst]
          rfl
      _ = .token (item.token mark) ::
            yields (mark.after (item.text ++ item.gap)) (characters items) := by
          rw [yields_layout item.layout, Mark.after_append]
      _ = (tokens mark (item :: items)).map .token := by
          rw [ih _ htail]
          rfl

end Written

/-- Scanning undoes writing.  Of lexemes with layout before, between and behind them, no two of
which stand side by side, scanning gives back one token each and the mark of the end, and finds no
fault.  Each token has the kind and the literal that its lexeme spells, and stands where the lexeme
was written. -/
theorem scan_written {lead : List Char} (hlead : Layout lead) {items : List Written}
    (hgaps : ∀ item ∈ items.dropLast, item.gap ≠ []) :
    let source := String.ofList (lead ++ Written.characters items)
    (scan source).errors = [] ∧ (scan source).tokens.length = items.length + 1 ∧
      (∃ mark, (scan source).tokens.getLast? = some mark ∧ mark.kind = .eof) ∧
      ∀ i item, items[i]? = some item →
        ∃ token : Token, (scan source).tokens[i]? = some token ∧
          token.lexeme = String.ofList item.text ∧ token.kind = item.kind ∧
          token.literal = item.literal ∧
          token.offset = (lead ++ Written.characters (items.take i)).length := by
  intro source
  have hyields : yields .start source.toList =
      (Written.tokens (Mark.start.after lead) items).map .token := by
    rw [String.toList_ofList, yields_layout hlead, Written.yields_characters _ hgaps]
  have htokens : (scan source).tokens = Written.tokens (Mark.start.after lead) items ++
      [(Mark.start.after source.toList).endToken] := by
    rw [scan_tokens_eq, hyields, List.filterMap_map]
    congr 1
    exact List.filterMap_some
  refine ⟨?_, ?_, ?_, ?_⟩
  · rw [scan_errors_eq, hyields, List.filterMap_map]
    exact List.filterMap_eq_nil_iff.mpr fun _ _ ↦ rfl
  · rw [htokens, List.length_append, Written.length_tokens]
    rfl
  · exact ⟨_, by rw [htokens, List.getLast?_concat], rfl⟩
  · intro i item hitem
    have hi : i < items.length := (List.getElem?_eq_some_iff.mp hitem).1
    refine ⟨item.token (Mark.start.after (lead ++ Written.characters (items.take i))), ?_, rfl, rfl,
      rfl, ?_⟩
    · rw [htokens, List.getElem?_append_left (by rwa [Written.length_tokens]),
        Written.getElem?_tokens, hitem, Mark.after_append]
      rfl
    · simp [Written.token, Mark.after, Mark.start]

/-- In the text `//a`, `while1 >= //b`, `"//" /` of three lines, the comments are passed over, the
word is a name and the slashes in quotation marks are a text. -/
theorem commented_lines_scanned :
    let lead := ['/', '/', 'a', '\n']
    let name : Written := ⟨['w', 'h', 'i', 'l', 'e', '1'], .identifier, .nil,
      .name rfl (List.all_eq_true.mp rfl) (by decide +kernel), [' '], .blank rfl .nil, by decide⟩
    let sign : Written := ⟨Kind.greaterEqual.mark.toList, .greaterEqual, .nil, .symbol (by decide),
      [' ', '/', '/', 'b', '\n'], .blank rfl (@Layout.comment ['b'] [] (by decide) .nil), by decide⟩
    let text : Written := ⟨['"', '/', '/', '"'], .string, .text "//",
      @Spells.text ['/', '/'] (by decide), [' '], .blank rfl .nil, by decide⟩
    let slash : Written := ⟨Kind.slash.mark.toList, .slash, .nil, .symbol (by decide), [], .nil,
      by decide⟩
    let items := [name, sign, text, slash]
    let source := String.ofList (lead ++ Written.characters items)
    source = "//a\nwhile1 >= //b\n\"//\" /" ∧ (scan source).errors = [] ∧
      (scan source).tokens.length = 5 ∧
      ∃ token, (scan source).tokens[2]? = some token ∧ token.kind = .string ∧
        token.offset = 18 := by
  intro lead name sign text slash items source
  have hlead : Layout lead := @Layout.comment ['a'] [] (by decide) .nil
  have hgaps : ∀ item ∈ items.dropLast, item.gap ≠ [] := by
    simp [items, name, sign, text]
  obtain ⟨herrors, hlength, -, htokens⟩ := scan_written hlead hgaps
  obtain ⟨token, htoken, -, hkind, -, hoffset⟩ := htokens 2 text rfl
  exact ⟨by decide +kernel, herrors, hlength, token, htoken, hkind, hoffset⟩

end Lox
