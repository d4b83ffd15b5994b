import Lox.Proofs.Scan.Tiles

/-!
# Tokens, faults and layout tile the source

The spans of the tokens and of the faults lie in the source one after the other without overlapping,
each token is what the source holds in its span, and whatever is left between the spans is blank or
part of a comment.  All places follow from the marks of the tiles, since the tiles together are the
source.
-/

namespace Lox

namespace Cut

/-! ## What a cut can be -/

/-- A blank character, or a comment up to the end of its line. -/
def IsLayout (cut : Cut) : Prop :=
  (∃ c, cut.taken = [c] ∧ Text.isBlank c = true) ∨
    (∃ more, cut.taken = '/' :: '/' :: more) ∧ '\n' ∉ cut.taken ∧
      (cut.rest = [] ∨ ∃ after, cut.rest = '\n' :: after)

/-- What is true of a cut according to what was read. -/
def Fair (cut : Cut) : Prop :=
  match cut.reading with
  | .layout => cut.IsLayout
  | .lexeme kind _ => kind ≠ .eof
  | .unexpected _ => cut.taken.length = 1
  | .unterminated => True

theorem text_fair (quote : Char) (rest : List Char) : (text quote rest).Fair := by
  unfold text
  split
  · trivial
  · simp [Fair]

theorem fraction_fair (whole rest : List Char) : (fraction whole rest).Fair := by
  unfold fraction
  split
  · split
    · simp [Fair]
    · simp [Fair]
  · simp [Fair]

theorem keyword?_ne_eof (name : String) : Kind.keyword? name ≠ some .eof := by
  unfold Kind.keyword?
  split <;> simp

theorem word_fair (source : List Char) : (word source).Fair := by
  unfold word
  have hne := keyword?_ne_eof (String.ofList (source.takeWhile Text.continuesName))
  cases hkind : Kind.keyword? (String.ofList (source.takeWhile Text.continuesName)) with
  | none => simp [Fair, hkind]
  | some kind =>
    rw [hkind] at hne
    simpa [Fair, hkind] using hne

theorem other_fair (c : Char) (rest : List Char) : (other c rest).Fair := by
  unfold other
  split
  · exact text_fair c rest
  · split
    · rename_i hblank
      exact .inl ⟨c, rfl, hblank⟩
    · split
      · exact fraction_fair _ _
      · split
        · exact word_fair _
        · exact rfl

theorem single_fair (c : Char) (rest : List Char) : (single c rest).Fair := by
  have hne : Kind.single? c ≠ some .eof := by
    unfold Kind.single?
    split <;> simp
  unfold single
  split
  · rename_i kind hkind
    rw [hkind] at hne
    simpa [Fair] using hne
  · exact other_fair c rest

theorem symbol_fair (c : Char) (rest : List Char) : (symbol c rest).Fair := by
  unfold symbol
  split
  · exact single_fair c []
  · rename_i d rest'
    have hne : Kind.pair? c d ≠ some .eof := by
      unfold Kind.pair?
      split <;> simp
    split
    · rename_i kind hkind
      rw [hkind] at hne
      simpa [Fair] using hne
    · exact single_fair c _

/-- A comment stops before the next line feed. -/
theorem comment_fair (rest : List Char) :
    Cut.Fair ⟨.layout, '/' :: ('/' :: rest).takeWhile (· != '\n'),
      ('/' :: rest).dropWhile (· != '\n')⟩ := by
  refine .inr ⟨⟨rest.takeWhile (· != '\n'), rfl⟩, ?_, ?_⟩
  · have hnone : ∀ c ∈ ('/' :: rest).takeWhile (· != '\n'), c ≠ '\n' := by
      intro c hc
      simpa using List.all_eq_true.mp List.all_takeWhile c hc
    intro hmem
    rcases List.mem_cons.mp hmem with heq | hmem
    · cases heq
    · exact hnone _ hmem rfl
  · cases hdrop : ('/' :: rest).dropWhile (· != '\n') with
    | nil => exact .inl rfl
    | cons c after =>
      have hc := List.head?_dropWhile_not (· != '\n') ('/' :: rest)
      rw [hdrop] at hc
      have hfeed : c = '\n' := by simpa using hc
      exact .inr ⟨after, by rw [hfeed]⟩

theorem first_fair (c : Char) (rest : List Char) : (first c rest).Fair := by
  unfold first
  split
  · exact comment_fair _
  · exact symbol_fair c rest

end Cut

/-! ## Where tiles lie -/

theorem Mark.offset_after (mark : Mark) (taken : List Char) :
    (mark.after taken).offset = mark.offset + taken.length :=
  rfl

/-- The place of a tile in the source. -/
theorem mem_tiles {mark : Mark} {source : List Char} {tile : Tile} (h : tile ∈ tiles mark source) :
    ∃ before, source = before ++ (tile.cut.taken ++ tile.cut.rest) ∧
      tile.mark = mark.after before ∧ tile.cut.taken ≠ [] ∧ tile.cut.Fair := by
  fun_induction tiles mark source with
  | case1 => cases h
  | case2 mark c rest ih =>
    have hsource := Cut.taken_append_rest c rest
    rcases List.mem_cons.mp h with rfl | h
    · obtain ⟨more, htaken, -⟩ := Cut.first_divides c rest
      refine ⟨[], hsource.symm, (Mark.after_nil mark).symm, ?_, Cut.first_fair c rest⟩
      rw [htaken]
      exact List.cons_ne_nil c more
    · obtain ⟨before, hbefore, hmark, hne, hfair⟩ := ih h
      refine ⟨(Cut.first c rest).taken ++ before, ?_, ?_, hne, hfair⟩
      · rw [← hsource, hbefore, List.append_assoc]
      · rw [hmark, Mark.after_append]

/-- Tiles follow one another. -/
theorem tiles_pairwise (mark : Mark) (source : List Char) :
    (tiles mark source).Pairwise fun a b ↦ a.stop ≤ b.mark.offset := by
  fun_induction tiles mark source with
  | case1 => exact .nil
  | case2 mark c rest ih =>
    refine .cons (fun tile htile ↦ ?_) ih
    obtain ⟨before, -, hmark, -, -⟩ := mem_tiles htile
    rw [hmark, Mark.offset_after]
    exact Nat.le_add_right _ _

/-- Every character lies in a tile. -/
theorem exists_tile (mark : Mark) (source : List Char) {i : Nat} (hi : i < source.length) :
    ∃ tile ∈ tiles mark source, tile.mark.offset ≤ mark.offset + i ∧ mark.offset + i < tile.stop := by
  fun_induction tiles mark source generalizing i with
  | case1 => cases hi
  | case2 mark c rest ih =>
    have hlength := congrArg List.length (Cut.taken_append_rest c rest)
    rw [List.length_append] at hlength
    by_cases hfirst : i < (Cut.first c rest).taken.length
    · exact ⟨_, List.mem_cons_self, Nat.le_add_right _ _, Nat.add_lt_add_left hfirst _⟩
    · obtain ⟨tile, htile, hle, hlt⟩ := ih (by omega : i - (Cut.first c rest).taken.length < _)
      rw [Mark.offset_after] at hle hlt
      exact ⟨tile, List.mem_cons_of_mem _ htile, by omega, by omega⟩

/-! ## Spans -/

/-- The places from `start` up to, but not including, `stop`. -/
structure Span where
  start : Nat
  stop : Nat

namespace Span

def Covers (span : Span) (i : Nat) : Prop :=
  span.start ≤ i ∧ i < span.stop

def of (source : List Char) (span : Span) : List Char :=
  (source.drop span.start).take (span.stop - span.start)

/-- A span that is not empty and lies in the source, in the given line. -/
structure Lies (source : List Char) (span : Span) (line : Int) : Prop where
  nonempty : span.start < span.stop
  inside : span.stop ≤ source.length
  line_eq : line = 1 + (source.take span.start).count '\n'

/-- Two slashes and all that follows up to the next line feed or the end. -/
def IsComment (source : List Char) (span : Span) : Prop :=
  (∃ more, span.of source = '/' :: '/' :: more) ∧ '\n' ∉ span.of source ∧
    (span.stop = source.length ∨ source[span.stop]? = some '\n')

end Span

def Token.span (token : Token) : Span :=
  ⟨token.offset.toNat, token.offset.toNat + token.lexeme.length⟩

def LexicalError.span (error : LexicalError) : Span :=
  ⟨error.offset, error.offset + error.length⟩

def Tile.span (tile : Tile) : Span :=
  ⟨tile.mark.offset, tile.stop⟩

/-- Tokens and faults are spread over the source without overlapping, and what is left is blank or
comment. -/
structure Tiled (source : List Char) (tokens : List Token) (errors : List LexicalError) : Prop where
  token : ∀ t ∈ tokens, t.offset = t.span.start ∧ t.span.Lies source t.line ∧
    t.span.of source = t.lexeme.toList
  error : ∀ e ∈ errors, e.span.Lies source e.line
  tokens_ordered : tokens.Pairwise fun a b ↦ a.span.stop ≤ b.span.start
  errors_ordered : errors.Pairwise fun a b ↦ a.span.stop ≤ b.span.start
  disjoint : ∀ t ∈ tokens, ∀ e ∈ errors, ∀ i, t.span.Covers i → ¬e.span.Covers i
  layout : ∀ i, (∀ t ∈ tokens, ¬t.span.Covers i) → (∀ e ∈ errors, ¬e.span.Covers i) →
    ∀ c, source[i]? = some c → Text.isBlank c = true ∨
      ∃ comment : Span, comment.Covers i ∧ comment.IsComment source ∧
        ∀ j, comment.Covers j → (∀ t ∈ tokens, ¬t.span.Covers j) ∧ ∀ e ∈ errors, ¬e.span.Covers j

/-! ### Spans of tiles -/

namespace Tile

theorem token?_eq_some {tile : Tile} {token : Token} (h : tile.token? = some token) :
    ∃ kind literal, tile.cut.reading = .lexeme kind literal ∧
      token = ⟨kind, String.ofList tile.cut.taken, literal, tile.mark.line, tile.mark.offset⟩ := by
  unfold token? Cut.piece? at h
  split at h
  · cases h
  · rename_i kind literal hreading
    exact ⟨kind, literal, hreading, (Option.some.inj h).symm⟩
  · cases h
  · cases h

theorem span_token {tile : Tile} {token : Token} (h : tile.token? = some token) :
    token.span = tile.span := by
  obtain ⟨kind, literal, -, rfl⟩ := token?_eq_some h
  simp [Token.span, Tile.span, stop]

theorem span_error {tile : Tile} {error : LexicalError} (hfair : tile.cut.Fair)
    (h : tile.error? = some error) : error.span = tile.span ∧ error.line = tile.mark.line := by
  unfold Cut.Fair at hfair
  unfold error? Cut.piece? at h
  split at h
  · cases h
  · cases h
  · rename_i hreading
    rw [hreading] at hfair
    cases h
    simp [LexicalError.span, Tile.span, stop, hfair]
  · cases h
    exact ⟨rfl, rfl⟩

theorem error?_eq_none {tile : Tile} {token : Token} (h : tile.token? = some token) :
    tile.error? = none := by
  obtain ⟨kind, literal, hreading, -⟩ := token?_eq_some h
  simp [error?, Cut.piece?, hreading, Piece.error?]

/-- A tile that yields neither a token nor a fault is layout. -/
theorem isLayout {tile : Tile} (hfair : tile.cut.Fair) (htoken : tile.token? = none)
    (herror : tile.error? = none) : tile.cut.IsLayout := by
  unfold Cut.Fair at hfair
  unfold token? error? Cut.piece? at *
  cases hreading : tile.cut.reading with
  | layout => simpa [hreading] using hfair
  | lexeme kind literal => simp [hreading, Piece.token?] at htoken
  | unexpected c => simp [hreading, Piece.error?] at herror
  | unterminated => simp [hreading, Piece.error?] at herror

end Tile

section

variable {source : List Char} {tile : Tile} (h : tile ∈ tiles .start source)
include h

/-- The span of a tile holds what was taken. -/
theorem of_span_tile : tile.span.of source = tile.cut.taken := by
  obtain ⟨before, hsource, hmark, -, -⟩ := mem_tiles h
  have hoffset : tile.mark.offset = before.length := by simp [hmark, Mark.after, Mark.start]
  have hlength : tile.stop - before.length = tile.cut.taken.length := by
    unfold Tile.stop
    omega
  unfold Span.of Tile.span
  rw [hoffset, hlength, hsource, List.drop_left, List.take_left]

theorem lies_span_tile : tile.span.Lies source tile.mark.line := by
  obtain ⟨before, hsource, hmark, hne, -⟩ := mem_tiles h
  have hoffset : tile.mark.offset = before.length := by simp [hmark, Mark.after, Mark.start]
  have hpos := List.length_pos_iff.mpr hne
  refine ⟨?_, ?_, ?_⟩
  · change tile.mark.offset < tile.mark.offset + _
    omega
  · change tile.mark.offset + _ ≤ _
    rw [hsource, List.length_append, List.length_append]
    omega
  · change (tile.mark.line : Int) = 1 + ((source.take tile.mark.offset).count '\n' : Nat)
    rw [hoffset, hsource, List.take_left, hmark]
    simp [Mark.after, Mark.start]

/-- A tile of layout is blank or a comment. -/
theorem layout_span_tile (hlayout : tile.cut.IsLayout) {i : Nat} (hi : tile.span.Covers i) {c : Char}
    (hc : source[i]? = some c) : Text.isBlank c = true ∨ tile.span.IsComment source := by
  obtain ⟨before, hsource, hmark, -, -⟩ := mem_tiles h
  have hoffset : tile.mark.offset = before.length := by simp [hmark, Mark.after, Mark.start]
  have hcovers : before.length ≤ i ∧ i < before.length + tile.cut.taken.length := hoffset ▸ hi
  rcases hlayout with ⟨b, htaken, hblank⟩ | ⟨hslashes, hfeed, hrest⟩
  · left
    have hi' : i = before.length := by
      rw [htaken, List.length_singleton] at hcovers
      omega
    have hb : source[i]? = some b := by simp [hsource, hi', htaken]
    rw [hb] at hc
    exact Option.some.inj hc ▸ hblank
  · right
    have hstop : tile.span.stop = (before ++ tile.cut.taken).length := by
      change tile.mark.offset + tile.cut.taken.length = _
      rw [hoffset, List.length_append]
    refine ⟨?_, ?_, ?_⟩
    · rw [of_span_tile h]
      exact hslashes
    · rw [of_span_tile h]
      exact hfeed
    · rw [hstop, hsource, ← List.append_assoc]
      rcases hrest with hrest | ⟨after, hrest⟩
      · left
        rw [hrest, List.append_nil]
      · right
        rw [hrest, List.getElem?_append_right (Nat.le_refl _), Nat.sub_self]
        rfl

end

/-- No two tiles have a place in common. -/
theorem tile_unique {mark : Mark} {source : List Char} {a b : Tile} (ha : a ∈ tiles mark source)
    (hb : b ∈ tiles mark source) {i : Nat} (hi : a.span.Covers i) (hi' : b.span.Covers i) : a = b := by
  have hpairs := tiles_pairwise mark source
  have hforall : ∀ ⦃x⦄, x ∈ tiles mark source → ∀ ⦃y⦄, y ∈ tiles mark source →
      ∀ i, x.span.Covers i → y.span.Covers i → x = y := by
    apply List.Pairwise.forall_of_forall_of_flip
    · intro x _ i _ _
      rfl
    · apply hpairs.imp
      intro x y hle i hx hy
      have hx' : i < x.stop := hx.2
      have hy' : y.mark.offset ≤ i := hy.1
      omega
    · apply hpairs.imp
      intro x y hle i hy hx
      have hx' : i < x.stop := hx.2
      have hy' : y.mark.offset ≤ i := hy.1
      omega
  exact hforall ha hb i hi hi'

/-! ## The tiling -/

theorem fair_of_mem_tiles {mark : Mark} {source : List Char} {tile : Tile}
    (h : tile ∈ tiles mark source) : tile.cut.Fair := by
  obtain ⟨before, -, -, -, hfair⟩ := mem_tiles h
  exact hfair

/-! ### Tokens and faults lie where their tiles lie -/

section

variable {source : List Char}

theorem token_lies {token : Token} (h : token ∈ (tiles .start source).filterMap Tile.token?) :
    token.offset = token.span.start ∧ token.span.Lies source token.line ∧
      token.span.of source = token.lexeme.toList := by
  obtain ⟨tile, htile, heq⟩ := List.mem_filterMap.mp h
  have hof := of_span_tile htile
  have hlies := lies_span_tile htile
  rw [Tile.span_token heq]
  obtain ⟨kind, literal, -, rfl⟩ := Tile.token?_eq_some heq
  refine ⟨rfl, hlies, ?_⟩
  rw [hof, String.toList_ofList]

theorem error_lies {error : LexicalError}
    (h : error ∈ (tiles .start source).filterMap Tile.error?) : error.span.Lies source error.line := by
  obtain ⟨tile, htile, heq⟩ := List.mem_filterMap.mp h
  obtain ⟨hspan, hline⟩ := Tile.span_error (fair_of_mem_tiles htile) heq
  rw [hspan, hline]
  exact lies_span_tile htile

end

/-! ### Tokens and faults come in the order of their tiles -/

theorem tokens_pairwise (source : List Char) :
    ((tiles .start source).filterMap Tile.token?).Pairwise fun a b ↦ a.span.stop ≤ b.span.start := by
  rw [List.pairwise_filterMap]
  apply (tiles_pairwise .start source).imp
  intro a b hle token htoken token' htoken'
  rw [Tile.span_token htoken, Tile.span_token htoken']
  exact hle

theorem errors_pairwise (source : List Char) :
    ((tiles .start source).filterMap Tile.error?).Pairwise fun a b ↦ a.span.stop ≤ b.span.start := by
  rw [List.pairwise_filterMap]
  apply (tiles_pairwise .start source).imp_of_mem
  intro a b ha hb hle error herror error' herror'
  rw [(Tile.span_error (fair_of_mem_tiles ha) herror).1,
    (Tile.span_error (fair_of_mem_tiles hb) herror').1]
  exact hle

/-! ### What covers the places of a tile -/

section

variable {source : List Char} {tile : Tile} {i : Nat} (h : tile ∈ tiles .start source)
  (hi : tile.span.Covers i)
include h hi

/-- A token that covers a place of a tile belongs to the tile. -/
theorem token?_of_covers {token : Token} (htoken : token ∈ (tiles .start source).filterMap Tile.token?)
    (hcovers : token.span.Covers i) : tile.token? = some token := by
  obtain ⟨other, hother, heq⟩ := List.mem_filterMap.mp htoken
  rw [Tile.span_token heq] at hcovers
  rw [tile_unique h hother hi hcovers]
  exact heq

/-- A fault that covers a place of a tile belongs to the tile. -/
theorem error?_of_covers {error : LexicalError}
    (herror : error ∈ (tiles .start source).filterMap Tile.error?)
    (hcovers : error.span.Covers i) : tile.error? = some error := by
  obtain ⟨other, hother, heq⟩ := List.mem_filterMap.mp herror
  rw [(Tile.span_error (fair_of_mem_tiles hother) heq).1] at hcovers
  rw [tile_unique h hother hi hcovers]
  exact heq

/-- A tile yields no token if a place of it is covered by none, and then none of its places is. -/
theorem token?_eq_none_iff : tile.token? = none ↔
    ∀ t ∈ (tiles .start source).filterMap Tile.token?, ¬t.span.Covers i := by
  constructor
  · intro hnone token hmem hcovers
    have heq := token?_of_covers h hi hmem hcovers
    rw [hnone] at heq
    cases heq
  · intro huncovered
    rw [Option.eq_none_iff_forall_ne_some]
    intro token heq
    refine huncovered token (List.mem_filterMap.mpr ⟨tile, h, heq⟩) ?_
    rwa [Tile.span_token heq]

/-- A tile yields no fault if a place of it is covered by none, and then none of its places is. -/
theorem error?_eq_none_iff : tile.error? = none ↔
    ∀ e ∈ (tiles .start source).filterMap Tile.error?, ¬e.span.Covers i := by
  constructor
  · intro hnone error hmem hcovers
    have heq := error?_of_covers h hi hmem hcovers
    rw [hnone] at heq
    cases heq
  · intro huncovered
    rw [Option.eq_none_iff_forall_ne_some]
    intro error heq
    refine huncovered error (List.mem_filterMap.mpr ⟨tile, h, heq⟩) ?_
    rwa [(Tile.span_error (fair_of_mem_tiles h) heq).1]

end

theorem token_error_disjoint {source : List Char} {token : Token} {error : LexicalError}
    (htoken : token ∈ (tiles .start source).filterMap Tile.token?)
    (herror : error ∈ (tiles .start source).filterMap Tile.error?) {i : Nat}
    (hi : token.span.Covers i) : ¬error.span.Covers i := by
  obtain ⟨tile, htile, heq⟩ := List.mem_filterMap.mp htoken
  rw [Tile.span_token heq] at hi
  exact (error?_eq_none_iff htile hi).mp (Tile.error?_eq_none heq) error herror

/-- What no token and no fault covers lies in a tile of layout, none of whose places is covered. -/
theorem layout_of_uncovered {source : List Char} {i : Nat}
    (htokens : ∀ t ∈ (tiles .start source).filterMap Tile.token?, ¬t.span.Covers i)
    (herrors : ∀ e ∈ (tiles .start source).filterMap Tile.error?, ¬e.span.Covers i) {c : Char}
    (hc : source[i]? = some c) : Text.isBlank c = true ∨
      ∃ comment : Span, comment.Covers i ∧ comment.IsComment source ∧ ∀ j, comment.Covers j →
        (∀ t ∈ (tiles .start source).filterMap Tile.token?, ¬t.span.Covers j) ∧
          ∀ e ∈ (tiles .start source).filterMap Tile.error?, ¬e.span.Covers j := by
  have hlength : i < source.length := (List.getElem?_eq_some_iff.mp hc).1
  obtain ⟨tile, htile, hle, hlt⟩ := exists_tile .start source hlength
  have hi : tile.span.Covers i := by
    rw [← Nat.zero_add i]
    exact ⟨hle, hlt⟩
  have htoken := (token?_eq_none_iff htile hi).mpr htokens
  have herror := (error?_eq_none_iff htile hi).mpr herrors
  have hlayout := Tile.isLayout (fair_of_mem_tiles htile) htoken herror
  rcases layout_span_tile htile hlayout hi hc with hblank | hcomment
  · exact .inl hblank
  · refine .inr ⟨tile.span, hi, hcomment, ?_⟩
    intro j hj
    exact ⟨(token?_eq_none_iff htile hj).mp htoken, (error?_eq_none_iff htile hj).mp herror⟩

/-- Tokens and faults that are read off the tiles tile the source. -/
theorem tiled (source : List Char) :
    Tiled source ((tiles .start source).filterMap Tile.token?)
      ((tiles .start source).filterMap Tile.error?) where
  token _ := token_lies
  error _ := error_lies
  tokens_ordered := tokens_pairwise source
  errors_ordered := errors_pairwise source
  disjoint _ htoken _ herror _ := token_error_disjoint htoken herror
  layout _ htokens herrors _ := layout_of_uncovered htokens herrors

/-- No tile is the mark of the end. -/
theorem kind_ne_eof {mark : Mark} {source : List Char} {token : Token}
    (h : token ∈ (tiles mark source).filterMap Tile.token?) : token.kind ≠ .eof := by
  obtain ⟨tile, htile, heq⟩ := List.mem_filterMap.mp h
  have hfair := fair_of_mem_tiles htile
  obtain ⟨kind, literal, hreading, rfl⟩ := Tile.token?_eq_some heq
  unfold Cut.Fair at hfair
  rwa [hreading] at hfair

/-- Scanning tiles the source: it ends with the only mark of the end, which lies behind all
characters, and the spans of the other tokens and of the faults, and the layout between them, are
the source. -/
theorem scan_tiles_source (source : String) :
    ∃ (tokens : List Token) (mark : Token), (scan source).tokens = tokens ++ [mark] ∧
      mark.kind = .eof ∧ (∀ t ∈ tokens, t.kind ≠ .eof) ∧ mark.offset = source.length ∧
      mark.line = 1 + source.toList.count '\n' ∧
      Tiled source.toList tokens (scan source).errors := by
  refine ⟨_, _, scan_tokens source, rfl, fun token htoken ↦ kind_ne_eof htoken, ?_, ?_, ?_⟩
  · simp [Mark.endToken, Mark.after, Mark.start, String.length_toList]
  · simp [Mark.endToken, Mark.after, Mark.start]
  · rw [scan_errors]
    exact tiled source.toList

end Lox
