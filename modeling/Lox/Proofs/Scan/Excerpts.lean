import Lox.Diagnostic.Excerpt
import Lox.Proofs.Scan.Join

/-!
# Excerpts point at lexemes

The line of a lexeme is counted in line feeds, and so is the column in which it begins.  The line
that is shown is counted in all characters that end a line.  Both are the same as long as there are
no others but line feeds up to the end of the line, and then the excerpt for a fault shows the line
in which the lexeme begins, with what the line holds of the lexeme underlined.
-/

namespace Lox

/-! ## Lines -/

namespace Text

/-- No line has a character in it that ends a line. -/
theorem isLineBreak_of_mem_linesFrom {begun source line : List Char}
    (hbegun : ∀ c ∈ begun, isLineBreak c = false) (hline : line ∈ linesFrom begun source) :
    ∀ c ∈ line, isLineBreak c = false := by
  have hreverse {begun : List Char} (hbegun : ∀ c ∈ begun, isLineBreak c = false) :
      ∀ c ∈ begun.reverse, isLineBreak c = false :=
    fun c hc ↦ hbegun c (List.mem_reverse.mp hc)
  fun_induction linesFrom begun source with
  | case1 => cases hline
  | case2 begun =>
    rw [List.mem_singleton.mp hline]
    exact hreverse hbegun
  | case3 begun rest ih =>
    rcases List.mem_cons.mp hline with rfl | hline
    · exact hreverse hbegun
    · exact ih (List.forall_mem_nil _) hline
  | case4 begun c rest _ _ ih =>
    rcases List.mem_cons.mp hline with rfl | hline
    · exact hreverse hbegun
    · exact ih (List.forall_mem_nil _) hline
  | case5 begun c rest _ hc ih =>
    exact ih (List.forall_mem_cons.mpr ⟨Bool.eq_false_iff.mpr hc, hbegun⟩) hline

theorem isLineBreak_of_mem_lines {text line : String} (h : line ∈ lines text) :
    ∀ c ∈ line.toList, isLineBreak c = false := by
  obtain ⟨chars, hchars, rfl⟩ := List.mem_map.mp h
  rw [String.toList_ofList]
  exact isLineBreak_of_mem_linesFrom (List.forall_mem_nil _) hchars

theorem linesFrom_lineFeed (begun rest : List Char) :
    linesFrom begun ('\n' :: rest) = begun.reverse :: linesFrom [] rest := by
  rw [linesFrom]
  · rfl
  · nofun

theorem linesFrom_cons {c : Char} (h : isLineBreak c = false) (begun rest : List Char) :
    linesFrom begun (c :: rest) = linesFrom (c :: begun) rest := by
  rw [linesFrom]
  · rw [h]
    rfl
  · rintro rest rfl
    cases h

theorem linesFrom_append {run : List Char} (h : ∀ c ∈ run, isLineBreak c = false)
    (begun rest : List Char) :
    linesFrom begun (run ++ rest) = linesFrom (run.reverse ++ begun) rest := by
  induction run generalizing begun with
  | nil => rfl
  | cons c run ih =>
    obtain ⟨hc, hrun⟩ := List.forall_mem_cons.mp h
    rw [List.cons_append, linesFrom_cons hc, ih hrun, List.reverse_cons, List.append_assoc,
      List.singleton_append]

/-- The first line ends before the first line feed. -/
theorem getElem?_zero_linesFrom {right : List Char}
    (hright : ∀ c ∈ right.takeWhile (· != '\n'), isLineBreak c = false)
    (hne : right.takeWhile (· != '\n') ≠ []) (begun : List Char) :
    (linesFrom begun right)[0]? = some (begun.reverse ++ right.takeWhile (· != '\n')) := by
  have hsplit := List.takeWhile_append_dropWhile (p := (· != '\n')) (l := right)
  have hlines := linesFrom_append hright begun (right.dropWhile (· != '\n'))
  rw [hsplit] at hlines
  have hbegun : (right.takeWhile (· != '\n')).reverse ++ begun ≠ [] :=
    fun h ↦ hne (List.reverse_eq_nil_iff.mp (List.append_eq_nil_iff.mp h).1)
  have hfirst : begun.reverse ++ right.takeWhile (· != '\n') =
      ((right.takeWhile (· != '\n')).reverse ++ begun).reverse := by simp
  rw [hlines, hfirst]
  cases hdrop : right.dropWhile (· != '\n') with
  | nil =>
    rw [linesFrom, if_neg (by rwa [List.isEmpty_iff])]
    rfl
  | cons feed rest =>
    have hfeed := List.head?_dropWhile_not (· != '\n') right
    rw [hdrop] at hfeed
    obtain rfl : feed = '\n' := by simpa using hfeed
    rw [linesFrom_lineFeed]
    rfl

/-- As long as only line feeds end lines, a line has as many lines before it as there are line
feeds. -/
theorem getElem?_linesFrom {begun left right : List Char} (hbegun : '\n' ∉ begun)
    (hleft : ∀ c ∈ left, isLineBreak c = true → c = '\n')
    (hright : ∀ c ∈ right.takeWhile (· != '\n'), isLineBreak c = false)
    (hne : right.takeWhile (· != '\n') ≠ []) :
    (linesFrom begun (left ++ right))[left.count '\n']? =
      some (((left.reverse ++ begun).takeWhile (· != '\n')).reverse ++
        right.takeWhile (· != '\n')) := by
  induction left generalizing begun with
  | nil =>
    have htake : (begun ++ []).takeWhile (· != '\n') = begun :=
      takeWhile_append_run (forall_bne_of_not_mem hbegun) nofun
    rw [List.append_nil] at htake
    rw [List.reverse_nil, List.nil_append, List.nil_append, htake]
    exact getElem?_zero_linesFrom hright hne begun
  | cons c left ih =>
    obtain ⟨hc, hothers⟩ := List.forall_mem_cons.mp hleft
    rw [List.cons_append, List.reverse_cons, List.append_assoc, List.singleton_append]
    by_cases hfeed : c = '\n'
    · subst hfeed
      rw [linesFrom_lineFeed, List.count_cons_self, List.getElem?_cons_succ,
        ih List.not_mem_nil hothers, List.append_nil, takeWhile_append_stop (by decide)]
    · have hbreak : isLineBreak c = false := Bool.eq_false_iff.mpr fun h ↦ hfeed (hc h)
      have hbegun : '\n' ∉ c :: begun := by simpa using ⟨Ne.symm hfeed, hbegun⟩
      rw [linesFrom_cons hbreak, List.count_cons_of_ne hfeed, ih hbegun hothers]

end Text

def lineBefore (source : List Char) (place : Nat) : List Char :=
  ((source.take place).reverse.takeWhile (· != '\n')).reverse

def lineFrom (source : List Char) (place : Nat) : List Char :=
  (source.drop place).takeWhile (· != '\n')

/-- The line of a place: what stands between the line feeds around it. -/
def lineAt (source : List Char) (place : Nat) : List Char :=
  lineBefore source place ++ lineFrom source place

/-- No other characters than line feeds end lines up to the end of the line of a place. -/
def FeedsOnly (source : List Char) (place : Nat) : Prop :=
  ∀ c ∈ source.take place ++ lineFrom source place, Text.isLineBreak c = true → c = '\n'

instance (source : List Char) (place : Nat) : Decidable (FeedsOnly source place) :=
  List.decidableBAll _ _

theorem lineFeed_notMem_lineAt (source : List Char) (place : Nat) :
    '\n' ∉ lineAt source place := by
  have hrun (l : List Char) : '\n' ∉ l.takeWhile (· != '\n') := by
    intro h
    simpa using List.all_eq_true.mp List.all_takeWhile '\n' h
  unfold lineAt lineBefore lineFrom
  rw [List.mem_append, List.mem_reverse, not_or]
  exact ⟨hrun _, hrun _⟩

/-- A place where no line feed stands lies in a line that is not empty. -/
theorem lineFrom_eq_cons {source : List Char} {place : Nat} {c : Char}
    (h : source[place]? = some c) (hc : c ≠ '\n') : ∃ rest, lineFrom source place = c :: rest := by
  obtain ⟨hlt, hget⟩ := List.getElem?_eq_some_iff.mp h
  refine ⟨(source.drop (place + 1)).takeWhile (· != '\n'), ?_⟩
  rw [lineFrom, List.drop_eq_getElem_cons hlt, hget, List.takeWhile_cons_of_pos (by simpa using hc)]

/-- The line of a place has the number of line feeds before it, if no other characters end lines. -/
theorem getElem?_lines {source : String} {place : Nat} {c : Char}
    (hplace : source.toList[place]? = some c) (hc : c ≠ '\n')
    (h : FeedsOnly source.toList place) :
    (Text.lines source)[(source.toList.take place).count '\n']? =
      some (String.ofList (lineAt source.toList place)) := by
  obtain ⟨hleft, hright⟩ := List.forall_mem_append.mp h
  obtain ⟨rest, hrest⟩ := lineFrom_eq_cons hplace hc
  have hright : ∀ c ∈ lineFrom source.toList place, Text.isLineBreak c = false := by
    intro c hc'
    rw [Bool.eq_false_iff]
    intro hbreak
    obtain rfl := hright c hc' hbreak
    exact lineFeed_notMem_lineAt _ _ (List.mem_append_right _ hc')
  have hlines := Text.getElem?_linesFrom List.not_mem_nil hleft hright
    (by rw [← lineFrom, hrest]; exact List.cons_ne_nil c rest)
  rw [List.take_append_drop, List.append_nil] at hlines
  rw [Text.lines, List.getElem?_map, hlines]
  rfl

/-! ## Faults at lexemes -/

/-- A fault located at a lexeme of the source: at a token that is not the mark of the end, or at a
malformed lexeme.  The calls in progress may have been added to it. -/
inductive Diagnostic.LocatedAt (source : String) : Diagnostic → Span → Prop
  | token {token : Token} (h : token ∈ (scan source).tokens) (hkind : token.kind ≠ .eof)
      (category : Category) (message : String) (backtrace : Option (List Frame)) :
      LocatedAt source { Diagnostic.atToken category token message with backtrace } token.span
  | lexeme {error : LexicalError} (h : error ∈ (scan source).errors) :
      LocatedAt source error.diagnostic error.span

/-- A tile that begins with a line feed is layout. -/
theorem Tile.not_lineFeed {mark : Mark} {source : List Char} {tile : Tile}
    (h : tile ∈ tiles mark source) (hpiece : tile.cut.piece? tile.mark ≠ none) :
    ∃ c rest, tile.cut.taken = c :: rest ∧ c ≠ '\n' := by
  obtain ⟨c, rest, hcut⟩ := exists_first_of_mem_tiles h
  obtain ⟨more, htaken, -⟩ := Cut.first_divides c rest
  refine ⟨c, more, by rw [hcut, htaken], ?_⟩
  rintro rfl
  rw [hcut, Cut.first_lineFeed] at hpiece
  exact hpiece rfl

/-- What a fault at a lexeme says about its place. -/
structure Diagnostic.Places (d : Diagnostic) (source : List Char) (span : Span) : Prop where
  line_eq : d.line = some (1 + (source.take span.start).count '\n' : Nat)
  offset_eq : d.offset = some (span.start : Int)
  length_eq : d.length = (span.stop - span.start : Nat)
  inside : span.start < source.length
  starts : ∃ c, source[span.start]? = some c ∧ c ≠ '\n'

/-- A fault that is placed where a tile begins and spans it. -/
theorem Diagnostic.places_span_tile {source : List Char} {tile : Tile}
    (h : tile ∈ tiles .start source) (hpiece : tile.cut.piece? tile.mark ≠ none) {d : Diagnostic}
    (hline : d.line = some (tile.mark.line : Int))
    (hoffset : d.offset = some (tile.mark.offset : Int))
    (hlength : d.length = tile.cut.taken.length) : d.Places source tile.span := by
  obtain ⟨c, rest, htaken, hc⟩ := Tile.not_lineFeed h hpiece
  obtain ⟨before, hsource, hmark, -, -⟩ := mem_tiles h
  have hlies := lies_span_tile h
  have hstart : tile.span.start = before.length := by
    simp [Tile.span, hmark, Mark.after, Mark.start]
  have hspan : tile.span.stop = tile.span.start + tile.cut.taken.length := rfl
  refine ⟨?_, hoffset, ?_, Nat.lt_of_lt_of_le hlies.nonempty hlies.inside, c, ?_, hc⟩
  · rw [hline, hlies.line_eq]
    simp
  · rw [hlength, hspan, Nat.add_sub_cancel_left]
  · simp [hsource, hstart, htaken]

/-- A fault at a lexeme tells its place. -/
theorem Diagnostic.LocatedAt.places {source : String} {d : Diagnostic} {span : Span}
    (h : d.LocatedAt source span) : d.Places source.toList span := by
  cases h with
  | @token token h hkind category message backtrace =>
    rw [scan_tokens] at h
    rcases List.mem_append.mp h with h | h
    · obtain ⟨tile, htile, heq⟩ := List.mem_filterMap.mp h
      have hpiece : tile.cut.piece? tile.mark ≠ none := by
        intro hnone
        rw [Tile.token?, hnone] at heq
        cases heq
      obtain ⟨-, -, -, hne, -⟩ := mem_tiles htile
      have hpos := List.length_pos_iff.mpr hne
      rw [Tile.span_token heq]
      obtain ⟨kind, literal, -, rfl⟩ := Tile.token?_eq_some heq
      refine places_span_tile htile hpiece rfl rfl ?_
      change max ((String.ofList tile.cut.taken).length : Int) 1 = _
      rw [String.length_ofList]
      omega
    · rw [List.mem_singleton.mp h] at hkind
      exact absurd rfl hkind
  | @lexeme error h =>
    rw [scan_errors] at h
    obtain ⟨tile, htile, heq⟩ := List.mem_filterMap.mp h
    have hpiece : tile.cut.piece? tile.mark ≠ none := by
      intro hnone
      rw [Tile.error?, hnone] at heq
      cases heq
    obtain ⟨-, -, -, -, hfair⟩ := mem_tiles htile
    obtain ⟨hspan, hline⟩ := Tile.span_error hfair heq
    have hoffset : error.offset = tile.mark.offset := congrArg Span.start hspan
    have hstop : error.offset + error.length = tile.mark.offset + tile.cut.taken.length :=
      congrArg Span.stop hspan
    rw [hspan]
    refine places_span_tile htile hpiece ?_ ?_ ?_
    · exact congrArg (fun line : Nat ↦ some (line : Int)) hline
    · exact congrArg (fun offset : Nat ↦ some (offset : Int)) hoffset
    · change (error.length : Int) = _
      omega

/-! ## Excerpts -/

/-- The excerpt for a fault at a lexeme, where `text` is the line that is shown. -/
theorem Diagnostic.Places.excerpt?_eq {source : String} {d : Diagnostic} {span : Span}
    (h : d.Places source.toList span) :
    (Source.ofString source).excerpt? d =
      ((Text.lines source)[(source.toList.take span.start).count '\n']?).bind fun text ↦
        if text.length < (lineBefore source.toList span.start).length then none
        else some ⟨(1 + (source.toList.take span.start).count '\n' : Nat), text,
          (lineBefore source.toList span.start).length,
          max 1 (min (span.stop - span.start)
            (text.length - (lineBefore source.toList span.start).length))⟩ := by
  have hcolumn : (Source.ofString source).column span.start =
      (lineBefore source.toList span.start).length := by
    have hlength : (source.toList.take span.start).length = span.start :=
      List.length_take_of_le (Nat.le_of_lt h.inside)
    unfold Source.column lineBefore
    change span.start - (source.toList.take span.start).length + _ = _
    rw [hlength, Nat.sub_self, Nat.zero_add, List.length_reverse]
    rfl
  have hnumber (a b : Nat) : (max 1 (min (a : Int) (b : Int))).toNat = max 1 (min a b) := by omega
  have hnatural : ¬((1 + (source.toList.take span.start).count '\n' : Nat) ≤ (0 : Int) ∨
      (span.start : Int) < 0) := by omega
  unfold Source.excerpt?
  rw [h.line_eq, h.offset_eq, h.length_eq]
  simp only [Option.bind_eq_bind, Option.pure_def, Option.bind_some, if_neg hnatural,
    Int.toNat_natCast, Nat.add_sub_cancel_left, hcolumn, hnumber]
  rfl

/-- What is written for a fault at a lexeme points at it: behind the number of the line in which the
lexeme begins stands the line, and below, under the first character of the lexeme, a caret, with
tildes under as much of the lexeme as is in the line. -/
structure Excerpt.PointsAt (excerpt : Excerpt) (source : List Char) (span : Span) : Prop where
  line_eq : excerpt.line = 1 + (source.take span.start).count '\n'
  written : ∀ console, excerpt.render console =
    excerpt.gutter ++ String.ofList (lineAt source span.start) ++ "\n" ++
      String.ofList
        (List.replicate (excerpt.gutter.length + (lineBefore source span.start).length) ' ') ++
      console.emphasise .fault (String.ofList
        ('^' :: List.replicate (max 1 ((span.of source).takeWhile (· != '\n')).length - 1) '~'))
  below : ∃ c, source[span.start]? = some c ∧
    (excerpt.gutter.toList ++ lineAt source span.start)[
      excerpt.gutter.length + (lineBefore source span.start).length]? = some c

def Diagnostic.IsShown (d : Diagnostic) (source : String) (span : Span) : Prop :=
  ∃ excerpt, (Source.ofString source).excerpt? d = some excerpt ∧
    excerpt.PointsAt source.toList span

theorem length_takeWhile_take (p : Char → Bool) (source : List Char) (count : Nat) :
    ((source.take count).takeWhile p).length = min count (source.takeWhile p).length := by
  induction source generalizing count with
  | nil => simp
  | cons c source ih =>
    cases count with
    | zero => simp
    | succ count =>
      rw [List.take_succ_cons, List.takeWhile_cons, List.takeWhile_cons]
      split
      · rw [List.length_cons, List.length_cons, ih]
        omega
      · simp

theorem length_of_span (source : List Char) (span : Span) :
    ((span.of source).takeWhile (· != '\n')).length =
      min (span.stop - span.start) (lineFrom source span.start).length :=
  length_takeWhile_take _ _ _

section

variable {source : String} {d : Diagnostic} {span : Span} (h : d.Places source.toList span)
include h

theorem Diagnostic.Places.isShown
    (hline : (Text.lines source)[(source.toList.take span.start).count '\n']? =
      some (String.ofList (lineAt source.toList span.start))) : d.IsShown source span := by
  have hlength : (String.ofList (lineAt source.toList span.start)).length =
      (lineBefore source.toList span.start).length +
        (lineFrom source.toList span.start).length := by
    rw [String.length_ofList, lineAt, List.length_append]
  have hexcerpt := h.excerpt?_eq
  rw [hline, Option.bind_some, hlength, if_neg (Nat.not_lt.mpr (Nat.le_add_right _ _)),
    Nat.add_sub_cancel_left, ← length_of_span] at hexcerpt
  obtain ⟨c, hstart, hc⟩ := h.starts
  obtain ⟨rest, hrest⟩ := lineFrom_eq_cons hstart hc
  refine ⟨_, hexcerpt, by simp, fun _ ↦ rfl, c, hstart, ?_⟩
  rw [← String.length_toList, List.getElem?_append_right (Nat.le_add_right _ _),
    Nat.add_sub_cancel_left, lineAt, List.getElem?_append_right (Nat.le_refl _), Nat.sub_self,
    hrest]
  rfl

/-- The line that is shown has been looked up among the lines of the source. -/
theorem Diagnostic.Places.getElem?_of_excerpt? {excerpt : Excerpt}
    (hexcerpt : (Source.ofString source).excerpt? d = some excerpt) :
    (Text.lines source)[(source.toList.take span.start).count '\n']? = some excerpt.text := by
  rw [h.excerpt?_eq] at hexcerpt
  obtain ⟨text, htext, hshown⟩ := Option.bind_eq_some_iff.mp hexcerpt
  split at hshown
  · cases hshown
  · cases hshown
    exact htext

/-- Whatever points at the lexeme shows its line. -/
theorem Diagnostic.IsShown.getElem?_lines (hshown : d.IsShown source span) :
    (Text.lines source)[(source.toList.take span.start).count '\n']? =
      some (String.ofList (lineAt source.toList span.start)) := by
  obtain ⟨excerpt, hexcerpt, hpoints⟩ := hshown
  have hline := h.getElem?_of_excerpt? hexcerpt
  have hwritten := congrArg String.toList (hpoints.written {})
  simp only [Excerpt.render, String.toList_append, List.append_assoc, String.toList_ofList]
    at hwritten
  have htext : '\n' ∉ excerpt.text.toList := fun hmem ↦ by
    have hbreak := Text.isLineBreak_of_mem_lines (List.mem_of_getElem? hline) '\n' hmem
    cases hbreak
  have hruns := run_append_inj (forall_bne_of_not_mem htext)
    (forall_bne_of_not_mem (lineFeed_notMem_lineAt _ _)) (by simp) (by simp)
    (List.append_cancel_left hwritten)
  rw [hline, ← hruns.1, String.ofList_toList]

/-- A line that other characters could end is not shown as it is. -/
theorem Diagnostic.Places.not_isShown {c : Char} (hc : c ∈ lineAt source.toList span.start)
    (hbreak : Text.isLineBreak c = true) : ¬d.IsShown source span := by
  intro hshown
  have hline := List.mem_of_getElem? (hshown.getElem?_lines h)
  have hnone := Text.isLineBreak_of_mem_lines hline c (by rwa [String.toList_ofList])
  rw [hbreak] at hnone
  cases hnone

end

/-- The excerpt for a fault at a lexeme points at the lexeme if only line feeds end lines up to the
end of the line in which it begins.  In general it does so just if the line that has as many lines
before it as there are line feeds before the lexeme is the line of the lexeme, which cannot be if
another character in the line of the lexeme ends lines. -/
theorem excerpt_points_at_lexeme {source : String} {d : Diagnostic} {span : Span}
    (h : d.LocatedAt source span) :
    (FeedsOnly source.toList span.start → d.IsShown source span) ∧
    (d.IsShown source span ↔
      (Text.lines source)[(source.toList.take span.start).count '\n']? =
        some (String.ofList (lineAt source.toList span.start))) ∧
    ((∃ c ∈ lineAt source.toList span.start, Text.isLineBreak c = true) →
      ¬d.IsShown source span) := by
  have hplaces := h.places
  obtain ⟨c, hstart, hc⟩ := hplaces.starts
  refine ⟨fun hfeeds ↦ ?_, ⟨fun hshown ↦ hshown.getElem?_lines hplaces, hplaces.isShown⟩, ?_⟩
  · exact hplaces.isShown (getElem?_lines hstart hc hfeeds)
  · rintro ⟨c, hc, hbreak⟩
    exact hplaces.not_isShown hc hbreak

/-- A text without its closing quotation mark begins in the second line and goes on in the third. -/
theorem unterminated_text_shown :
    let source := "print 1;\n \"a\nb"
    let error : LexicalError := ⟨.unterminated, 2, 10, 4⟩
    error.diagnostic.LocatedAt source ⟨10, 14⟩ ∧ FeedsOnly source.toList 10 ∧
      error.diagnostic.IsShown source ⟨10, 14⟩ ∧
      ((Source.ofString source).excerpt? error.diagnostic).map (·.render {}) =
        some "   2 |  \"a\n        ^~" := by
  intro source error
  have hlocated : error.diagnostic.LocatedAt source ⟨10, 14⟩ :=
    @Diagnostic.LocatedAt.lexeme source error (by decide +kernel)
  have hfeeds : FeedsOnly source.toList 10 := by decide +kernel
  exact ⟨hlocated, hfeeds, (excerpt_points_at_lexeme hlocated).1 hfeeds, by decide +kernel⟩

/-- A form feed at the end of the first line makes one line more, which is empty and shown in place
of the second. -/
theorem form_feed_moves_lines :
    let source := "print 1;\x0c\n@"
    let error : LexicalError := ⟨.unexpected '@', 2, 10, 1⟩
    error.diagnostic.LocatedAt source ⟨10, 11⟩ ∧ ¬error.diagnostic.IsShown source ⟨10, 11⟩ ∧
      ((Source.ofString source).excerpt? error.diagnostic).map (·.render {}) =
        some "   2 | \n       ^" := by
  intro source error
  have hlocated : error.diagnostic.LocatedAt source ⟨10, 11⟩ :=
    @Diagnostic.LocatedAt.lexeme source error (by decide +kernel)
  refine ⟨hlocated, fun hshown ↦ ?_, by decide +kernel⟩
  have hline := hshown.getElem?_lines hlocated.places
  revert hline
  decide +kernel

end Lox
