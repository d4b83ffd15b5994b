import Lox.Proofs.Relocation.Tree
import Lox.Proofs.Scan.Tiling
import Lox.Text.Line

/-!
# Scanning a text in two parts

No lexeme goes on across a line feed, except a text whose closing quotation mark is missing.  So the
tokens of two texts with a line feed between them are those of the one and then those of the other,
moved behind it.  A carriage return that the line feed swallows makes no difference.
-/

namespace Lox

/-! ## Runs of characters -/

section

variable {p : Char → Bool} {stop : Char}

/-- A run of characters ends before a character that is not one of them. -/
theorem takeWhile_append_stop (h : p stop = false) (source more : List Char) :
    (source ++ stop :: more).takeWhile p = source.takeWhile p := by
  induction source with
  | nil => simp [h]
  | cons c rest ih => simp only [List.cons_append, List.takeWhile_cons, ih]

theorem dropWhile_append_stop (h : p stop = false) (source more : List Char) :
    (source ++ stop :: more).dropWhile p = source.dropWhile p ++ stop :: more := by
  induction source with
  | nil => simp [h]
  | cons c rest ih =>
    simp only [List.cons_append, List.dropWhile_cons, ih]
    split
    · rfl
    · rfl

/-- A run that ends within a source does not go on behind it. -/
theorem takeWhile_append_of_dropWhile {source : List Char} (h : source.dropWhile p ≠ [])
    (more : List Char) : (source ++ more).takeWhile p = source.takeWhile p := by
  have hpos := List.length_pos_iff.mpr h
  have hsum := congrArg List.length (List.takeWhile_append_dropWhile (p := p) (l := source))
  rw [List.length_append] at hsum
  rw [List.takeWhile_append, if_neg (by omega)]

theorem forall_bne_of_not_mem {source : List Char} (h : stop ∉ source) :
    ∀ c ∈ source, (c != stop) = true := by
  intro c hc
  rw [bne_iff_ne]
  rintro rfl
  exact h hc

theorem takeWhile_append_run {run rest : List Char} (hrun : ∀ c ∈ run, p c = true)
    (hrest : ∀ c ∈ rest.head?, p c = false) : (run ++ rest).takeWhile p = run := by
  rw [List.takeWhile_append_of_pos hrun]
  cases rest with
  | nil => simp
  | cons c rest => simp [hrest c rfl]

/-- A run and what follows it can be told apart in one way only. -/
theorem run_append_inj {run run' rest rest' : List Char} (hrun : ∀ c ∈ run, p c = true)
    (hrun' : ∀ c ∈ run', p c = true) (hrest : ∀ c ∈ rest.head?, p c = false)
    (hrest' : ∀ c ∈ rest'.head?, p c = false) (h : run ++ rest = run' ++ rest') :
    run = run' ∧ rest = rest' := by
  have heq : run = run' := by
    rw [← takeWhile_append_run hrun hrest, h, takeWhile_append_run hrun' hrest']
  subst heq
  exact ⟨rfl, List.append_cancel_left h⟩

end

/-- A character that no lexeme goes on with. -/
structure Separates (stop : Char) : Prop where
  digit : stop.isDigit = false
  name : Text.continuesName stop = false
  point : stop ≠ '.'
  slash : stop ≠ '/'
  equal : stop ≠ '='

theorem separates_lineFeed : Separates '\n' := by
  constructor <;> decide

theorem separates_return : Separates '\r' := by
  constructor <;> decide

/-! ## Cuts -/

namespace Cut

def followedBy (cut : Cut) (more : List Char) : Cut :=
  { cut with rest := cut.rest ++ more }

/-- A text ends at its closing quotation mark, whatever comes then. -/
theorem text_followedBy {quote : Char} {rest : List Char}
    (h : (text quote rest).reading ≠ .unterminated) (more : List Char) :
    text quote (rest ++ more) = (text quote rest).followedBy more := by
  unfold text at h ⊢
  cases hdrop : rest.dropWhile (· != '"') with
  | nil =>
    rw [hdrop] at h
    exact absurd rfl h
  | cons close after =>
    have htaken : (rest ++ more).takeWhile (· != '"') = rest.takeWhile (· != '"') :=
      takeWhile_append_of_dropWhile (by simp [hdrop]) more
    have hdropped : (rest ++ more).dropWhile (· != '"') = close :: (after ++ more) := by
      simp [List.dropWhile_append, hdrop]
    simp only [htaken, hdropped, followedBy]

variable {stop : Char}

/-- A number ends before a character that is neither a digit nor a point. -/
theorem fraction_followedBy (hstop : Separates stop) (whole rest more : List Char) :
    fraction whole (rest ++ stop :: more) = (fraction whole rest).followedBy (stop :: more) := by
  have hpoint := hstop.point
  rcases rest with _ | ⟨c, _ | ⟨d, rest⟩⟩
  · simp [fraction, followedBy, hpoint]
  · by_cases hc : c = '.'
    · simp [fraction, followedBy, hc, hstop.digit]
    · simp [fraction, followedBy, hc]
  · by_cases hc : c = '.'
    · subst hc
      by_cases hd : d.isDigit = true
      · simp [fraction, followedBy, hd, takeWhile_append_stop hstop.digit,
          dropWhile_append_stop hstop.digit]
      · simp [fraction, followedBy, hd]
    · simp [fraction, followedBy, hc]

/-- A number is read alike with a separator behind it. -/
theorem number_followedBy (hstop : Separates stop) (source more : List Char) :
    number (source ++ stop :: more) = (number source).followedBy (stop :: more) := by
  unfold number
  rw [takeWhile_append_stop hstop.digit, dropWhile_append_stop hstop.digit,
    fraction_followedBy hstop]

theorem word_followedBy (hstop : Separates stop) (source more : List Char) :
    word (source ++ stop :: more) = (word source).followedBy (stop :: more) := by
  simp only [word, followedBy, takeWhile_append_stop hstop.name, dropWhile_append_stop hstop.name]

theorem other_followedBy (hstop : Separates stop) {c : Char} {rest : List Char}
    (h : (other c rest).reading ≠ .unterminated) (more : List Char) :
    other c (rest ++ stop :: more) = (other c rest).followedBy (stop :: more) := by
  unfold other at h ⊢
  split
  · rename_i hquote
    rw [if_pos hquote] at h
    exact text_followedBy h (stop :: more)
  · split
    · rfl
    · split
      · exact number_followedBy hstop (c :: rest) more
      · split
        · exact word_followedBy hstop (c :: rest) more
        · rfl

theorem single_followedBy (hstop : Separates stop) {c : Char} {rest : List Char}
    (h : (single c rest).reading ≠ .unterminated) (more : List Char) :
    single c (rest ++ stop :: more) = (single c rest).followedBy (stop :: more) := by
  unfold single at h ⊢
  split
  · rfl
  · rename_i hkind
    rw [hkind] at h
    exact other_followedBy hstop h more

/-- A symbol at the end of a source is not made into a pair by what separates it. -/
theorem symbol_followedBy (hstop : Separates stop) {c : Char} {rest : List Char}
    (h : (symbol c rest).reading ≠ .unterminated) (more : List Char) :
    symbol c (rest ++ stop :: more) = (symbol c rest).followedBy (stop :: more) := by
  cases rest with
  | nil =>
    have hpair : Kind.pair? c stop = none := by
      have hequal := hstop.equal
      unfold Kind.pair?
      split
      all_goals first | rfl | exact absurd rfl hequal
    have hsingle : single c (stop :: more) = (single c []).followedBy (stop :: more) :=
      single_followedBy hstop h more
    simp only [List.nil_append, symbol, hpair, hsingle]
  | cons d rest =>
    cases hpair : Kind.pair? c d with
    | some kind => simp only [List.cons_append, symbol, hpair, followedBy]
    | none =>
      simp only [symbol, hpair] at h
      have hsingle := single_followedBy hstop h more
      simpa only [List.cons_append, symbol, hpair] using hsingle

/-- Two slashes and what follows them in their line. -/
def comment (rest : List Char) : Cut :=
  ⟨.layout, '/' :: rest.takeWhile (· != '\n'), rest.dropWhile (· != '\n')⟩

theorem first_comment (rest : List Char) : first '/' ('/' :: rest) = comment ('/' :: rest) :=
  rfl

theorem first_lineFeed (more : List Char) : first '\n' more = ⟨.layout, ['\n'], more⟩ := by
  cases more <;> rfl

/-- A carriage return added to a source belongs to the comment that ends the source, or else it
comes after the comment. -/
theorem comment_return (rest : List Char) :
    ((comment rest).rest = [] ∧ (comment (rest ++ ['\r'])).rest = []) ∨
      comment (rest ++ ['\r']) = (comment rest).followedBy ['\r'] := by
  cases hdrop : rest.dropWhile (· != '\n') with
  | nil =>
    left
    simp [comment, List.dropWhile_append, hdrop]
  | cons feed after =>
    right
    have htaken : (rest ++ ['\r']).takeWhile (· != '\n') = rest.takeWhile (· != '\n') :=
      takeWhile_append_of_dropWhile (by simp [hdrop]) ['\r']
    simp [comment, followedBy, htaken, List.dropWhile_append, hdrop]

/-- The source `c :: rest` begins with a comment. -/
def OpensComment (c : Char) (rest : List Char) : Prop :=
  ∃ more, c = '/' ∧ rest = '/' :: more

theorem first_of_not_opensComment {c : Char} {rest : List Char} (h : ¬OpensComment c rest) :
    first c rest = symbol c rest := by
  unfold first
  split
  · exact absurd ⟨_, rfl, rfl⟩ h
  · rfl

/-! ## Missing quotation marks -/

theorem first_quote (rest : List Char) : first '"' rest = text '"' rest := by
  cases rest <;> rfl

/-- A text lacks its end if no quotation mark follows. -/
theorem text_reading_eq (quote : Char) (rest : List Char) :
    (text quote rest).reading = .unterminated ↔ rest.dropWhile (· != '"') = [] := by
  unfold text
  cases rest.dropWhile (· != '"') with
  | nil => simp
  | cons close after => simp

theorem other_reading_ne {c : Char} (h : c ≠ '"') (rest : List Char) :
    (other c rest).reading ≠ .unterminated := by
  unfold other
  rw [if_neg h]
  split
  · simp
  · split
    · unfold number fraction
      split
      · split <;> simp
      · simp
    · split
      · simp [word]
      · simp

theorem first_reading_ne {c : Char} (h : c ≠ '"') (rest : List Char) :
    (first c rest).reading ≠ .unterminated := by
  have hsingle (rest : List Char) : (single c rest).reading ≠ .unterminated := by
    unfold single
    split
    · simp
    · exact other_reading_ne h rest
  unfold first
  split
  · simp
  · unfold symbol
    split
    · exact hsingle []
    · split
      · simp
      · exact hsingle _

/-- A text that lacks its closing quotation mark still lacks it if a carriage return is added. -/
theorem unterminated_return {c : Char} {rest : List Char}
    (h : (first c rest).reading = .unterminated) :
    (first c (rest ++ ['\r'])).reading = .unterminated := by
  by_cases hquote : c = '"'
  · subst hquote
    rw [first_quote, text_reading_eq] at h ⊢
    rw [List.dropWhile_append, h]
    rfl
  · exact absurd h (first_reading_ne hquote rest)

/-! ## The first cut -/

/-- What a source begins with does not depend on what stands behind a line feed, and neither does it
change when a carriage return is added that is not part of a comment. -/
theorem first_followedBy (hstop : Separates stop) {c : Char} {rest : List Char}
    (h : (first c rest).reading ≠ .unterminated) (more : List Char)
    (hcomment : stop = '\n' ∨ ¬OpensComment c rest) :
    first c (rest ++ stop :: more) = (first c rest).followedBy (stop :: more) := by
  by_cases hslashes : OpensComment c rest
  · obtain rfl := hcomment.resolve_right (not_not_intro hslashes)
    obtain ⟨rest, rfl, rfl⟩ := hslashes
    have hfeed : ('\n' != '\n') = false := rfl
    rw [List.cons_append, first_comment, first_comment, ← List.cons_append]
    simp only [comment, followedBy, takeWhile_append_stop (p := (· != '\n')) hfeed,
      dropWhile_append_stop (p := (· != '\n')) hfeed]
  · have hslashes' : ¬OpensComment c (rest ++ stop :: more) := by
      rintro ⟨after, rfl, hafter⟩
      cases rest with
      | nil => exact hstop.slash (List.cons.inj hafter).1
      | cons d rest => exact hslashes ⟨rest, rfl, by rw [(List.cons.inj hafter).1]⟩
    rw [first_of_not_opensComment hslashes] at h ⊢
    rw [first_of_not_opensComment hslashes', symbol_followedBy hstop h]

end Cut

/-! ## What the parts yield -/

def yields (mark : Mark) (source : List Char) : List Piece :=
  (tiles mark source).filterMap fun tile ↦ tile.cut.piece? tile.mark

theorem yields_nil (mark : Mark) : yields mark [] = [] := by
  simp [yields, tiles]

theorem yields_cons (mark : Mark) (c : Char) (rest : List Char) :
    yields mark (c :: rest) = ((Cut.first c rest).piece? mark).toList ++
      yields (mark.after (Cut.first c rest).taken) (Cut.first c rest).rest := by
  rw [yields, tiles, List.filterMap_cons]
  cases (Cut.first c rest).piece? mark with
  | none => rfl
  | some piece => rfl

theorem scan_tokens_eq (source : String) :
    (scan source).tokens = (yields .start source.toList).filterMap Piece.token? ++
      [(Mark.start.after source.toList).endToken] := by
  rw [scan_tokens, yields, List.filterMap_filterMap]
  rfl

theorem scan_errors_eq (source : String) :
    (scan source).errors = (yields .start source.toList).filterMap Piece.error? := by
  rw [scan_errors, yields, List.filterMap_filterMap]
  rfl

/-- No text lacks its closing quotation mark. -/
def Terminated (pieces : List Piece) : Prop :=
  ∀ e, Piece.error e ∈ pieces → e.cause ≠ .unterminated

theorem Terminated.of_append {pieces others : List Piece} (h : Terminated (pieces ++ others)) :
    Terminated others :=
  fun e he ↦ h e (List.mem_append_right _ he)

/-- What a source begins with is complete if nothing in the source lacks its end. -/
theorem reading_ne_unterminated {mark : Mark} {c : Char} {rest : List Char}
    (h : Terminated (yields mark (c :: rest))) : (Cut.first c rest).reading ≠ .unterminated := by
  intro hreading
  rw [yields_cons] at h
  have hpiece : (Cut.first c rest).piece? mark =
      some (.error ⟨.unterminated, mark.line, mark.offset, (Cut.first c rest).taken.length⟩) := by
    simp only [Cut.piece?, hreading]
  rw [hpiece] at h
  exact h _ List.mem_cons_self rfl

/-- What is read first is found first, and then what is found behind it. -/
theorem yields_followedBy {c : Char} {rest more : List Char}
    (h : Cut.first c (rest ++ more) = (Cut.first c rest).followedBy more) (mark : Mark) :
    yields mark (c :: rest ++ more) = ((Cut.first c rest).piece? mark).toList ++
      yields (mark.after (Cut.first c rest).taken) ((Cut.first c rest).rest ++ more) := by
  rw [List.cons_append, yields_cons, h]
  rfl

/-- What is found before a line feed and after it is found in the two parts. -/
theorem yields_lineFeed {mark : Mark} {source : List Char} (h : Terminated (yields mark source))
    (more : List Char) :
    yields mark (source ++ '\n' :: more) =
      yields mark source ++ yields (mark.after (source ++ ['\n'])) more := by
  fun_induction tiles mark source with
  | case1 mark =>
    rw [List.nil_append, yields_cons, yields_nil, Cut.first_lineFeed]
    rfl
  | case2 mark c rest ih =>
    have hfirst := Cut.first_followedBy separates_lineFeed (reading_ne_unterminated h) more (.inl rfl)
    rw [yields_cons] at h
    rw [yields_followedBy hfirst, ih h.of_append, yields_cons mark c rest, List.append_assoc,
      Mark.after_append, after_taken_rest, ← Mark.after_append]

/-- A carriage return at the end of a source makes no difference. -/
theorem yields_return {mark : Mark} {source : List Char}
    (h : Terminated (yields mark (source ++ ['\r']))) :
    yields mark (source ++ ['\r']) = yields mark source := by
  fun_induction tiles mark source with
  | case1 mark =>
    rw [List.nil_append, yields_cons, yields_nil]
    exact yields_nil _
  | case2 mark c rest ih =>
    have hreading : (Cut.first c rest).reading ≠ .unterminated :=
      fun hread ↦ reading_ne_unterminated h (Cut.unterminated_return hread)
    have hgoes (hfirst : Cut.first c (rest ++ ['\r']) = (Cut.first c rest).followedBy ['\r']) :
        yields mark (c :: rest ++ ['\r']) = yields mark (c :: rest) := by
      rw [yields_followedBy hfirst] at h ⊢
      rw [ih h.of_append, yields_cons mark c rest]
    by_cases hslashes : Cut.OpensComment c rest
    · obtain ⟨rest, rfl, rfl⟩ := hslashes
      -- A comment that ends the source takes the carriage return in, and nothing is left.
      rcases Cut.comment_return ('/' :: rest) with ⟨hrest, hrest'⟩ | hcomment
      · rw [List.cons_append, List.cons_append, yields_cons, yields_cons, Cut.first_comment,
          Cut.first_comment, ← List.cons_append, hrest, hrest']
        simp only [yields_nil]
        rfl
      · exact hgoes hcomment
    · exact hgoes (Cut.first_followedBy separates_return hreading [] (.inr hslashes))

/-! ## Moving a source -/

namespace Mark

def shift (lines count : Nat) (mark : Mark) : Mark :=
  ⟨mark.line + lines, mark.offset + count⟩

theorem after_shift (lines count : Nat) (mark : Mark) (taken : List Char) :
    (mark.shift lines count).after taken = (mark.after taken).shift lines count := by
  simp only [after, shift, Nat.add_right_comm]

theorem start_after (source : List Char) :
    start.after source = start.shift (source.count '\n') source.length :=
  rfl

end Mark

def LexicalError.shift (lines count : Nat) (e : LexicalError) : LexicalError :=
  { e with line := e.line + lines, offset := e.offset + count }

def Piece.shift (lines count : Nat) : Piece → Piece
  | .token t => .token (t.relocate (.shift lines count))
  | .error e => .error (e.shift lines count)

theorem Cut.piece?_shift (lines count : Nat) (cut : Cut) (mark : Mark) :
    cut.piece? (mark.shift lines count) = (cut.piece? mark).map (Piece.shift lines count) := by
  unfold piece?
  cases cut.reading <;> rfl

/-- A source that begins elsewhere yields the same, moved. -/
theorem yields_shift (lines count : Nat) (mark : Mark) (source : List Char) :
    yields (mark.shift lines count) source =
      (yields mark source).map (Piece.shift lines count) := by
  fun_induction tiles mark source with
  | case1 mark =>
    simp only [yields_nil]
    rfl
  | case2 mark c rest ih =>
    rw [yields_cons, yields_cons mark c rest, Cut.piece?_shift, Mark.after_shift, ih,
      List.map_append, Option.toList_map]

/-! ## Texts -/

theorem terminated_of_errors {source : String}
    (h : ∀ e ∈ (scan source).errors, e.cause ≠ .unterminated) :
    Terminated (yields .start source.toList) := by
  intro e he
  apply h
  rw [scan_errors_eq]
  exact List.mem_filterMap.mpr ⟨_, he, rfl⟩

theorem filterMap_token?_shift (lines count : Nat) (pieces : List Piece) :
    (pieces.map (Piece.shift lines count)).filterMap Piece.token? =
      (pieces.filterMap Piece.token?).map (Token.relocate (.shift lines count)) := by
  rw [List.filterMap_map, List.map_filterMap]
  congr 1
  funext piece
  cases piece <;> rfl

theorem filterMap_error?_shift (lines count : Nat) (pieces : List Piece) :
    (pieces.map (Piece.shift lines count)).filterMap Piece.error? =
      (pieces.filterMap Piece.error?).map (LexicalError.shift lines count) := by
  rw [List.filterMap_map, List.map_filterMap]
  congr 1
  funext piece
  cases piece <;> rfl

section

variable {first : String} (h : ∀ e ∈ (scan first).errors, e.cause ≠ .unterminated) (second : String)
include h

/-- What is found in two texts with a line feed between them. -/
theorem yields_joined :
    yields .start (first ++ "\n" ++ second).toList = yields .start first.toList ++
      (yields .start second.toList).map
        (Piece.shift (first.toList.count '\n' + 1) (first.toList.length + 1)) := by
  have htext : (first ++ "\n" ++ second).toList = first.toList ++ '\n' :: second.toList := by
    simp
  have hmark : Mark.start.after (first.toList ++ ['\n']) =
      Mark.start.shift (first.toList.count '\n' + 1) (first.toList.length + 1) := by
    simp [Mark.start_after]
  rw [htext, yields_lineFeed (terminated_of_errors h), hmark, yields_shift]

/-- The tokens of two texts with a line feed between them are those of the one, without the mark of
the end, and then those of the other, moved behind it. -/
theorem scan_tokens_joined :
    (scan (first ++ "\n" ++ second)).tokens = (scan first).tokens.dropLast ++
      (scan second).tokens.map
        (Token.relocate (.shift (first.toList.count '\n' + 1) (first.toList.length + 1))) := by
  have hmark : Mark.start.after (first ++ "\n" ++ second).toList =
      (Mark.start.after second.toList).shift (first.toList.count '\n' + 1)
        (first.toList.length + 1) := by
    simp [Mark.start_after, Mark.shift]
    omega
  rw [scan_tokens_eq, scan_tokens_eq first, scan_tokens_eq second, List.dropLast_concat,
    List.map_append, yields_joined h, List.filterMap_append, filterMap_token?_shift, hmark,
    List.append_assoc]
  rfl

theorem scan_errors_joined :
    (scan (first ++ "\n" ++ second)).errors = (scan first).errors ++
      (scan second).errors.map
        (LexicalError.shift (first.toList.count '\n' + 1) (first.toList.length + 1)) := by
  rw [scan_errors_eq, scan_errors_eq first, scan_errors_eq second, yields_joined h,
    List.filterMap_append, filterMap_error?_shift]

/-- Scanning distributes over a line feed.  If nothing in a text lacks its closing quotation mark,
and the text is joined to another one by a line feed, then the tokens are those of the first text
without the mark of its end and then those of the second, in lines and at offsets that are greater
by what comes before; and so are the faults. -/
theorem scan_distributes_over_lineFeed :
    let lines := 1 + first.toList.count '\n'
    let count := first.length + 1
    (∃ before mark, (scan first).tokens = before ++ [mark] ∧ mark.kind = .eof ∧
      (∀ t ∈ before, t.kind ≠ .eof) ∧
      (scan (first ++ "\n" ++ second)).tokens = before ++ (scan second).tokens.map fun t ↦
        { t with line := t.line + lines, offset := t.offset + count }) ∧
    (scan (first ++ "\n" ++ second)).errors = (scan first).errors ++
      (scan second).errors.map fun e ↦
        { e with line := e.line + lines, offset := e.offset + count } := by
  intro lines count
  have hlines : first.toList.count '\n' + 1 = lines := Nat.add_comm _ _
  have hcount : first.toList.length + 1 = count := by rw [String.length_toList]
  have htokens := scan_tokens_joined h second
  have herrors := scan_errors_joined h second
  rw [hlines, hcount] at htokens herrors
  refine ⟨⟨_, _, scan_tokens first, rfl, fun t ht ↦ kind_ne_eof ht, ?_⟩, herrors⟩
  rw [htokens, scan_tokens first, List.dropLast_concat]
  rfl

end

/-- The slash that ends the one text and the slash that begins the other do not make a comment. -/
theorem parted_slashes_scanned :
    let first := "a @ \"b\n\" 1. /"
    let second := "/ = \"c"
    (∀ e ∈ (scan first).errors, e.cause ≠ .unterminated) ∧
      (scan first).errors = [⟨.unexpected '@', 1, 2, 1⟩] ∧
      (scan (first ++ "\n" ++ second)).tokens.map (fun t ↦ (t.kind, t.line, t.offset)) =
        [(.identifier, 1, 0), (.string, 1, 4), (.number, 2, 9), (.dot, 2, 10), (.slash, 2, 12),
          (.slash, 3, 14), (.equal, 3, 16), (.eof, 3, 20)] ∧
      (scan (first ++ "\n" ++ second)).errors =
        [⟨.unexpected '@', 1, 2, 1⟩, ⟨.unterminated, 3, 18, 2⟩] := by
  intro first second
  have herrors : (scan first).errors = [⟨.unexpected '@', 1, 2, 1⟩] := by decide +kernel
  have herrors' : (scan second).errors = [⟨.unterminated, 1, 4, 2⟩] := by decide +kernel
  have hterminated : ∀ e ∈ (scan first).errors, e.cause ≠ .unterminated := by
    rw [herrors]
    decide
  refine ⟨hterminated, herrors, by decide +kernel, ?_⟩
  rw [(scan_distributes_over_lineFeed hterminated second).2, herrors, herrors']
  decide +kernel

/-! ## Carriage returns -/

namespace Text

/-- What has been read already comes first and is not looked at again. -/
theorem joinReturnsAfter_append (before done source : List Char) :
    joinReturnsAfter (done ++ before) source =
      before.reverse ++ joinReturnsAfter done source := by
  fun_induction joinReturnsAfter done source with
  | case1 done => simp [joinReturnsAfter]
  | case2 done rest ih => exact ih
  | case3 done c rest hpair ih =>
    rw [joinReturnsAfter]
    · exact ih
    · exact hpair

/-- A line feed between two texts swallows a carriage return at the end of the first. -/
theorem joinReturnsAfter_lineFeed (first second : List Char) :
    ∃ part, (joinReturnsAfter [] first = part ∨ joinReturnsAfter [] first = part ++ ['\r']) ∧
      joinReturnsAfter [] (first ++ '\n' :: second) =
        part ++ '\n' :: joinReturnsAfter [] second := by
  have hfrom (done source : List Char) :
      joinReturnsAfter done source = done.reverse ++ joinReturnsAfter [] source :=
    joinReturnsAfter_append done [] source
  suffices hsuffices : ∀ done, ∃ part,
      (joinReturnsAfter done first = part ∨ joinReturnsAfter done first = part ++ ['\r']) ∧
      joinReturnsAfter done (first ++ '\n' :: second) =
        part ++ '\n' :: joinReturnsAfter [] second from hsuffices []
  intro done
  fun_induction joinReturnsAfter done first with
  | case1 done =>
    refine ⟨done.reverse, .inl rfl, ?_⟩
    rw [List.nil_append, joinReturnsAfter, hfrom]
    · simp
    · nofun
  | case2 done rest ih => exact ih
  | case3 done c rest hpair ih =>
    by_cases hreturn : c = '\r' ∧ rest = []
    · obtain ⟨rfl, rfl⟩ := hreturn
      refine ⟨done.reverse, .inr (by simp [joinReturnsAfter]), ?_⟩
      rw [List.cons_append, List.nil_append, joinReturnsAfter, hfrom]
      simp
    · rw [List.cons_append, joinReturnsAfter]
      · exact ih
      · intro after hc hafter
        cases rest with
        | nil => exact hreturn ⟨hc, rfl⟩
        | cons d rest => exact hpair rest hc (by rw [(List.cons.inj hafter).1])

/-- A line feed between two texts swallows a carriage return at the end of the first. -/
theorem joinReturns_lineFeed (first second : String) :
    ∃ part : String, (joinReturns first = part ∨ joinReturns first = part ++ "\r") ∧
      joinReturns (first ++ "\n" ++ second) = part ++ "\n" ++ joinReturns second := by
  obtain ⟨part, hfirst, hjoined⟩ := joinReturnsAfter_lineFeed first.toList second.toList
  refine ⟨String.ofList part, ?_, ?_⟩
  · unfold joinReturns
    rcases hfirst with hfirst | hfirst
    · exact .inl (congrArg String.ofList hfirst)
    · rw [hfirst, String.ofList_append]
      exact .inr rfl
  · unfold joinReturns
    have htext : (first ++ "\n" ++ second).toList = first.toList ++ '\n' :: second.toList := by
      simp
    rw [htext, hjoined]
    apply String.toList_injective
    simp

end Text

/-- Scanning two texts without faults that are joined by a line feed, whatever their line ends. -/
theorem scan_joinReturns {first second : String}
    (hfirst : (scan (Text.joinReturns first)).errors = [])
    (hsecond : (scan (Text.joinReturns second)).errors = []) :
    (scan (Text.joinReturns (first ++ "\n" ++ second))).errors = [] ∧
      ∃ r, (scan (Text.joinReturns (first ++ "\n" ++ second))).tokens =
        (scan (Text.joinReturns first)).tokens.dropLast ++
          (scan (Text.joinReturns second)).tokens.map (Token.relocate r) := by
  obtain ⟨part, hpart, hjoined⟩ := Text.joinReturns_lineFeed first second
  have hterminated : Terminated (yields .start (Text.joinReturns first).toList) := by
    apply terminated_of_errors
    rw [hfirst]
    exact List.forall_mem_nil _
  have hyields : yields .start part.toList = yields .start (Text.joinReturns first).toList := by
    rcases hpart with heq | heq
    · rw [heq]
    · have htext : (Text.joinReturns first).toList = part.toList ++ ['\r'] := by
        rw [heq, String.toList_append]
        rfl
      rw [htext] at hterminated ⊢
      exact (yields_return hterminated).symm
  have herrors : (scan part).errors = [] := by
    rw [scan_errors_eq, hyields, ← scan_errors_eq, hfirst]
  have hpart : ∀ e ∈ (scan part).errors, e.cause ≠ .unterminated := by
    rw [herrors]
    exact List.forall_mem_nil _
  have htokens : (scan part).tokens.dropLast = (scan (Text.joinReturns first)).tokens.dropLast := by
    rw [scan_tokens_eq, scan_tokens_eq, List.dropLast_concat, List.dropLast_concat, hyields]
  rw [hjoined]
  constructor
  · rw [scan_errors_joined hpart, herrors, hsecond]
    rfl
  · exact ⟨_, by rw [scan_tokens_joined hpart, htokens]⟩

end Lox
