import Lox.Proofs.Relocation.Tree
import Lox.Proofs.Scan.Tiling
import Lox.Proofs.Scan.Writing

/-!
# Spelled tokens

Every token of a source but the mark of its end is spelled by its lexeme: what is cut off as a
lexeme is a symbol, a word, a number or a text, just as it would be written down.  The lexeme leaves
no choice for the kind and the literal, so apart from its place a token is determined by its lexeme.
-/

namespace Lox

/-! ## Cuts -/

theorem Kind.mark_of_single? {c : Char} {kind : Kind} (h : single? c = some kind) :
    kind.mark.toList = [c] := by
  unfold single? at h
  split at h
  all_goals cases h
  all_goals rfl

theorem Kind.mark_of_pair? {c d : Char} {kind : Kind} (h : pair? c d = some kind) :
    kind.mark.toList = [c, d] := by
  unfold pair? at h
  split at h
  all_goals cases h
  all_goals rfl

theorem spells_of_mark {kind : Kind} {source : List Char} (h : kind.mark.toList = source)
    (hlength : source.length ≤ 2) : Spells source kind .nil := by
  subst h
  exact .symbol (String.length_toList ▸ hlength)

namespace Cut

/-- If a lexeme is read, its characters spell it. -/
def Spelled (cut : Cut) : Prop :=
  ∀ kind literal, cut.reading = .lexeme kind literal → Spells cut.taken kind literal

theorem text_spelled (rest : List Char) : (text '"' rest).Spelled := by
  unfold text
  split
  · rintro kind literal ⟨⟩
  · rename_i close after hdrop
    have hclose := List.head?_dropWhile_not (· != '"') rest
    rw [hdrop] at hclose
    obtain rfl : close = '"' := by simpa using hclose
    rintro kind literal ⟨⟩
    refine .text fun hmem ↦ ?_
    have hne := List.all_eq_true.mp List.all_takeWhile '"' hmem
    simp at hne

theorem fraction_spelled {whole : List Char} (hne : whole ≠ [])
    (hdigits : ∀ c ∈ whole, c.isDigit = true) (rest : List Char) :
    (fraction whole rest).Spelled := by
  unfold fraction
  split
  · split
    · rename_i digit rest hdigit
      rintro kind literal ⟨⟩
      refine .fraction hne ?_ (List.forall_mem_append.mpr ⟨hdigits, ?_⟩)
      · rw [List.takeWhile_cons_of_pos hdigit]
        exact List.cons_ne_nil _ _
      · exact List.all_eq_true.mp List.all_takeWhile
    · rintro kind literal ⟨⟩
      exact .whole hne hdigits
  · rintro kind literal ⟨⟩
    exact .whole hne hdigits

theorem number_spelled {c : Char} (hc : c.isDigit = true) (rest : List Char) :
    (number (c :: rest)).Spelled := by
  refine fraction_spelled ?_ (List.all_eq_true.mp List.all_takeWhile) _
  rw [List.takeWhile_cons_of_pos hc]
  exact List.cons_ne_nil _ _

theorem word_spelled {c : Char} (hc : Text.startsName c = true) (rest : List Char) :
    (word (c :: rest)).Spelled := by
  have hcontinues : Text.continuesName c = true := by simp [Text.continuesName, hc]
  unfold word
  rw [List.takeWhile_cons_of_pos hcontinues]
  have hrest : ∀ d ∈ rest.takeWhile Text.continuesName, Text.continuesName d = true :=
    List.all_eq_true.mp List.all_takeWhile
  generalize rest.takeWhile Text.continuesName = more at hrest
  rintro kind literal ⟨⟩
  cases hkeyword : Kind.keyword? (String.ofList (c :: more)) with
  | some kind =>
    have hspells := Spells.keyword (Kind.keyword?_eq_some_iff.mp hkeyword)
    rwa [String.toList_ofList] at hspells
  | none =>
    refine .name hc hrest fun entry hentry heq ↦ ?_
    have hsome : Kind.keyword? entry.1 = some entry.2 := Kind.keyword?_eq_some_iff.mpr hentry
    rw [heq, hkeyword] at hsome
    cases hsome

theorem other_spelled (c : Char) (rest : List Char) : (other c rest).Spelled := by
  unfold other
  split
  · rename_i hquote
    exact hquote ▸ text_spelled rest
  split
  · rintro kind literal ⟨⟩
  split
  · exact number_spelled ‹_› rest
  split
  · exact word_spelled ‹_› rest
  · rintro kind literal ⟨⟩

theorem single_spelled (c : Char) (rest : List Char) : (single c rest).Spelled := by
  unfold single
  split
  · rename_i hkind
    rintro kind literal ⟨⟩
    exact spells_of_mark (Kind.mark_of_single? hkind) (by simp)
  · exact other_spelled c rest

/-- Whatever is read as a lexeme is spelled by its characters. -/
theorem first_spelled (c : Char) (rest : List Char) : (first c rest).Spelled := by
  unfold first
  split
  · rintro kind literal ⟨⟩
  unfold symbol
  split
  · exact single_spelled c []
  split
  · rename_i hkind
    rintro kind literal ⟨⟩
    exact spells_of_mark (Kind.mark_of_pair? hkind) (by simp)
  · exact single_spelled c _

end Cut

/-! ## Tokens -/

def Token.Spelled (token : Token) : Prop :=
  Spells token.lexeme.toList token.kind token.literal

/-- Every token but the mark of the end is spelled by its lexeme. -/
theorem scan_spelled {source : String} {token : Token} (h : token ∈ (scan source).tokens) :
    token.Spelled ∨ token = (Mark.start.after source.toList).endToken := by
  rw [scan_tokens] at h
  rcases List.mem_append.mp h with h | h
  · obtain ⟨tile, htile, htoken⟩ := List.mem_filterMap.mp h
    obtain ⟨kind, literal, hreading, rfl⟩ := Tile.token?_eq_some htoken
    obtain ⟨c, rest, hcut⟩ := exists_first_of_mem_tiles htile
    have hspells : Spells tile.cut.taken kind literal :=
      hcut ▸ Cut.first_spelled c rest kind literal (hcut ▸ hreading)
    left
    simpa [Token.Spelled] using hspells
  · exact .inr (List.mem_singleton.mp h)

/-- Characters spell one kind and one literal only. -/
theorem Spells.unique {source : List Char} {kind kind' : Kind} {literal literal' : Atom}
    (h : Spells source kind literal) (h' : Spells source kind' literal') :
    kind = kind' ∧ literal = literal' := by
  obtain ⟨c, rest, hsource, -, hfirst⟩ := Cut.isWhole_of_spells h
  obtain ⟨c', rest', hsource', -, hfirst'⟩ := Cut.isWhole_of_spells h'
  obtain ⟨rfl, rfl⟩ := List.cons.inj (hsource.symm.trans hsource')
  have hcut := hfirst.symm.trans hfirst'
  simpa using hcut

/-- Apart from its place, a token is determined by its lexeme. -/
theorem Token.Spelled.relocate_forget {token token' : Token} (h : token.Spelled)
    (h' : token'.Spelled) (hlexeme : token.lexeme = token'.lexeme) :
    token.relocate .forget = token'.relocate .forget := by
  obtain ⟨kind, lexeme, literal, line, offset⟩ := token
  obtain ⟨kind', lexeme', literal', line', offset'⟩ := token'
  obtain rfl : lexeme = lexeme' := hlexeme
  obtain ⟨rfl, rfl⟩ := h.unique h'
  rfl

/-! ## Lexemes by kind -/

namespace Kind

def spelling (kind : Kind) : String :=
  if kind.isKeyword then kind.name.map Char.toLower else kind.mark

theorem isKeyword_of_mem_keywords {word : String} {kind : Kind} (h : (word, kind) ∈ keywords) :
    kind.isKeyword = true ∧ word = kind.spelling := by
  obtain ⟨kind', hmem, heq⟩ := List.mem_map.mp h
  cases heq
  have hkeyword := (List.mem_filter.mp hmem).2
  exact ⟨hkeyword, (if_pos hkeyword).symm⟩

theorem isKeyword_eq_false {kind : Kind} (h : kind.mark.length ≤ 2) : kind.isKeyword = false := by
  revert h
  cases kind <;> decide +kernel

end Kind

/-- An atom that can be written in a program: a number is read from decimal digits, and a text has
no quotation marks. -/
def Atom.Writable : Atom → Prop
  | .nil | .bool _ => True
  | .number x => ∃ d : Decimal, x = d.toFloat
  | .text s => '"' ∉ s.toList

namespace Spells

variable {source : List Char} {literal : Atom}

/-- Symbols and keywords are spelled in one way only. -/
theorem eq_spelling {kind : Kind} (h : Spells source kind literal)
    (hkind : kind ∉ [Kind.identifier, .string, .number]) : source = kind.spelling.toList := by
  cases h with
  | symbol h =>
    rw [Kind.spelling, Kind.isKeyword_eq_false h, if_neg Bool.false_ne_true]
  | keyword h => rw [(Kind.isKeyword_of_mem_keywords h).2]
  | name | whole | fraction | text => simp at hkind

/-- The lexeme of a name has no characters but those of names. -/
theorem of_identifier (h : Spells source .identifier literal) :
    ∀ c ∈ source, Text.continuesName c = true := by
  cases h with
  | symbol h => exact absurd h (by decide)
  | keyword h => exact absurd (Kind.isKeyword_of_mem_keywords h).1 (by decide +kernel)
  | @name c rest hc hrest =>
    exact List.forall_mem_cons.mpr ⟨by simp [Text.continuesName, hc], hrest⟩

/-- An atom that is spelled can be written. -/
theorem writable {kind : Kind} (h : Spells source kind literal) : literal.Writable := by
  cases h with
  | symbol | keyword | name => trivial
  | whole | fraction => exact ⟨_, rfl⟩
  | text h => simpa [Atom.Writable] using h

end Spells

theorem Token.Spelled.lexeme_eq {token : Token} (h : token.Spelled)
    (hkind : token.kind ∉ [Kind.identifier, .string, .number]) :
    token.lexeme = token.kind.spelling :=
  String.toList_inj.mp (Spells.eq_spelling h hkind)

end Lox
