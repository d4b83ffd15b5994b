import Lox.Proofs.Scan.Join
import Lox.Token.Iteration

/-!
# Scanning on demand and scanning at once

Whatever passages a scanner has been taken through, and wherever they were given up, the next one
yields the tokens that scanning the whole source yields, and reports the same faults as far as it
goes.

One step of a scanner is told by the pieces that lie ahead of it (`next?_finds`), so a passage does
not hang on what those before it have left behind (`iterate_eq`).  The faults that a passage reports
are told by their offsets, since the pieces of a source follow one another (`pieces_pairwise`).
`iterations_eq_scan` is the main statement.
-/

namespace Lox

/-! ## The first pieces -/

theorem filterMap_token?_map_error (faults : List LexicalError) :
    (faults.map Piece.error).filterMap Piece.token? = [] := by
  simp [Piece.token?]

theorem upToToken_nil (count : Nat) : upToToken count [] = [] := by
  cases count <;> rfl

/-- The first part ends with its last token. -/
theorem upToToken_errors_token (count : Nat) (faults : List LexicalError) (t : Token)
    (pieces : List Piece) :
    upToToken (count + 1) (faults.map .error ++ .token t :: pieces) =
      faults.map .error ++ .token t :: upToToken count pieces := by
  induction faults with
  | nil => rfl
  | cons e faults ih =>
    rw [List.map_cons, List.cons_append, upToToken, ih, List.cons_append]

theorem filterMap_token?_upToToken (count : Nat) (pieces : List Piece) :
    (upToToken count pieces).filterMap Piece.token? =
      (pieces.filterMap Piece.token?).take count := by
  fun_induction upToToken count pieces with
  | case1 => rfl
  | case2 => rw [List.filterMap_nil, List.take_nil]
  | case3 count t pieces ih =>
    simp only [List.filterMap_cons, Piece.token?, ih, List.take_succ_cons]
  | case4 count e pieces ih =>
    simp only [List.filterMap_cons, Piece.token?, ih]

namespace Piece

def offset : Piece → Int
  | .token t => t.offset
  | .error e => e.offset

theorem offset_of_piece? {cut : Cut} {mark : Mark} {piece : Piece}
    (h : cut.piece? mark = some piece) : piece.offset = mark.offset := by
  unfold Cut.piece? at h
  split at h <;> cases h <;> rfl

theorem token_mem {pieces : List Piece} {t : Token}
    (h : t ∈ pieces.filterMap Piece.token?) : .token t ∈ pieces := by
  obtain ⟨piece, hpiece, htoken⟩ := List.mem_filterMap.mp h
  cases piece with
  | token t' => cases htoken; exact hpiece
  | error e => cases htoken

theorem error_mem {pieces : List Piece} {e : LexicalError}
    (h : e ∈ pieces.filterMap Piece.error?) : .error e ∈ pieces := by
  obtain ⟨piece, hpiece, herror⟩ := List.mem_filterMap.mp h
  cases piece with
  | token t => cases herror
  | error e' => cases herror; exact hpiece

end Piece

/-- The faults that come before token number `count`, or all if there are fewer tokens. -/
def Scan.errorsBefore (whole : Scan) (count : Nat) : List LexicalError :=
  match whole.tokens[count]? with
  | some t => whole.errors.filter fun e ↦ e.offset < t.offset
  | none => whole.errors

/-- Among pieces that follow one another, the faults up to a token are those before it. -/
theorem filterMap_error?_upToToken {pieces : List Piece}
    (h : pieces.Pairwise fun a b ↦ a.offset < b.offset) (count : Nat) :
    (upToToken (count + 1) pieces).filterMap Piece.error? =
      (Scan.ofPieces pieces).errorsBefore count := by
  induction pieces generalizing count with
  | nil => rfl
  | cons piece pieces ih =>
    obtain ⟨hfirst, hrest⟩ := List.pairwise_cons.mp h
    simp only [Scan.errorsBefore, Scan.ofPieces] at ih ⊢
    cases piece with
    | error e =>
      simp only [upToToken, List.filterMap_cons, Piece.error?, Piece.token?, ih hrest]
      cases ht : (pieces.filterMap Piece.token?)[count]? with
      | none => rfl
      | some t =>
        have hlt : (e.offset : Int) < t.offset :=
          hfirst (.token t) (Piece.token_mem (List.mem_of_getElem? ht))
        simp only [List.filter_cons, hlt, decide_true, ↓reduceIte]
    | token t =>
      cases count with
      | zero =>
        simp only [upToToken, List.filterMap_cons, Piece.error?, Piece.token?,
          List.filterMap_nil, List.getElem?_cons_zero]
        refine (List.filter_eq_nil_iff.mpr fun e he hlt ↦ ?_).symm
        have hgt : t.offset < (e.offset : Int) := hfirst (.error e) (Piece.error_mem he)
        exact absurd (of_decide_eq_true hlt) (by omega)
      | succ count =>
        simp only [upToToken, List.filterMap_cons, Piece.error?, Piece.token?, ih hrest,
          List.getElem?_cons_succ]

/-- The pieces of a source follow one another, and the end follows them all. -/
theorem pieces_pairwise (source : String) :
    (pieces source).Pairwise fun a b ↦ a.offset < b.offset := by
  have hpieces : pieces source = (tiles .start source.toList).filterMap
      (fun tile ↦ tile.cut.piece? tile.mark) ++
        [.token (Mark.start.after source.toList).endToken] := by
    rw [pieces, scanFrom_eq]
    rfl
  rw [hpieces, List.pairwise_append]
  refine ⟨?_, List.pairwise_singleton _ _, ?_⟩
  · rw [List.pairwise_filterMap]
    refine (List.Pairwise.and_mem.mp (tiles_pairwise _ _)).imp ?_
    rintro a b ⟨ha, -, hab⟩ pa hpa pb hpb
    obtain ⟨-, -, -, hne, -⟩ := mem_tiles ha
    have hlength := List.length_pos_iff.mpr hne
    rw [Piece.offset_of_piece? hpa, Piece.offset_of_piece? hpb]
    unfold Tile.stop at hab
    omega
  · intro a ha b hb
    obtain ⟨tile, htile, hpiece⟩ := List.mem_filterMap.mp ha
    obtain ⟨before, hsource, hmark, hne, -⟩ := mem_tiles htile
    have hlength := List.length_pos_iff.mpr hne
    cases List.mem_singleton.mp hb
    have hend : (Piece.token (Mark.start.after source.toList).endToken).offset =
        (Mark.start.after source.toList).offset := rfl
    rw [Piece.offset_of_piece? hpiece, hend, hmark, hsource]
    simp only [Mark.offset_after, List.length_append]
    omega

/-- A part of a source is told by the whole of it. -/
theorem scanPart_eq (source : String) (count : Nat) :
    scanPart source count =
      ⟨(scan source).tokens.take count, (scan source).errorsBefore count⟩ := by
  have htokens : (upToToken (count + 1) (pieces source)).filterMap Piece.token? =
      (scan source).tokens.take (count + 1) := filterMap_token?_upToToken _ _
  have herrors : (upToToken (count + 1) (pieces source)).filterMap Piece.error? =
      (scan source).errorsBefore count := filterMap_error?_upToToken (pieces_pairwise source) count
  rw [scanPart, Scan.ofPieces, htokens, herrors, List.take_take,
    Nat.min_eq_left (Nat.le_succ count)]

/-! ## The way of a scanner -/

namespace Scanner

def ahead (scanner : Scanner) : List Piece :=
  yields scanner.here scanner.rest ++ [.token (scanner.here.after scanner.rest).endToken]

/-- What has been passed and what has not is all there is. -/
def Stands (scanner : Scanner) : Prop :=
  (scanner.here.after scanner.rest).offset = scanner.source.length

/-- The way of a scanner past some pieces. -/
structure Passes (before : Scanner) (passed : List Piece) (after : Scanner) : Prop where
  source : after.source = before.source
  stands : before.Stands → after.Stands
  errors : after.errors.toList = before.errors.toList ++ passed.filterMap Piece.error?
  ahead : before.ahead = passed ++ after.ahead

theorem Passes.refl (scanner : Scanner) : scanner.Passes [] scanner :=
  ⟨rfl, id, (List.append_nil _).symm, rfl⟩

/-- Ways of a scanner are put together. -/
theorem Passes.trans {first second third : Scanner} {passed more : List Piece}
    (h : first.Passes passed second) (h' : second.Passes more third) :
    first.Passes (passed ++ more) third where
  source := h'.source.trans h.source
  stands := h'.stands ∘ h.stands
  errors := by rw [h'.errors, h.errors, List.filterMap_append, List.append_assoc]
  ahead := by rw [h.ahead, h'.ahead, List.append_assoc]

/-- Reading one lexeme passes the piece that it makes, if it makes one. -/
theorem pass_passes {scanner : Scanner} {c : Char} {rest : List Char}
    (hrest : scanner.rest = c :: rest) {piece : Option Piece}
    (hpiece : (Cut.first c rest).piece? scanner.here = piece) {errors : Array LexicalError}
    (herrors : errors.toList = scanner.errors.toList ++ piece.toList.filterMap Piece.error?) :
    scanner.Passes piece.toList { scanner.pass (Cut.first c rest) with errors } where
  source := rfl
  stands hstands := by
    rw [Stands, hrest, ← after_taken_rest] at hstands
    exact hstands
  errors := herrors
  ahead := by
    simp only [ahead, pass, hrest, yields_cons, hpiece, after_taken_rest, List.append_assoc]

/-- What it means to come to the next token, or to the end. -/
def Finds (scanner : Scanner) : Option Token × Scanner → Prop
  | (some t, after) =>
    ∃ faults : List LexicalError, scanner.Passes (faults.map .error ++ [.token t]) after
  | (none, after) =>
    ∃ faults : List LexicalError, scanner.Passes (faults.map .error) after ∧ after.rest = []

/-- Faults on the way are passed before what is found. -/
theorem Finds.after {scanner passed : Scanner} {faults : List LexicalError}
    {found : Option Token × Scanner} (h : scanner.Passes (faults.map .error) passed)
    (hfound : passed.Finds found) : scanner.Finds found := by
  obtain ⟨_ | t, after⟩ := found
  · obtain ⟨more, hmore, hrest⟩ := hfound
    refine ⟨faults ++ more, ?_, hrest⟩
    rw [List.map_append]
    exact h.trans hmore
  · obtain ⟨more, hmore⟩ := hfound
    refine ⟨faults ++ more, ?_⟩
    rw [List.map_append, List.append_assoc]
    exact h.trans hmore

/-- The next token is found behind the faults before it, or there is none. -/
theorem next?_finds (scanner : Scanner) : scanner.Finds scanner.next? := by
  fun_induction next? scanner with
  | case1 scanner hrest => exact ⟨[], .refl scanner, hrest⟩
  | case2 scanner c rest hrest cut passed t hpiece =>
    exact ⟨[], pass_passes hrest hpiece (List.append_nil _).symm⟩
  | case3 scanner c rest hrest cut passed e hpiece ih =>
    have hpasses : scanner.Passes ([e].map .error) (passed.report e) :=
      pass_passes hrest hpiece Array.toList_push
    exact .after hpasses ih
  | case4 scanner c rest hrest cut passed hpiece ih =>
    have hpasses : scanner.Passes (([] : List LexicalError).map .error) passed :=
      pass_passes hrest hpiece (List.append_nil _).symm
    exact .after hpasses ih

/-! ## Passages -/

/-- What has been asked for is the first part of what lies ahead. -/
theorem ask_eq (count : Nat) {scanner : Scanner} (h : scanner.Stands) :
    (scanner.ask count).1 = (upToToken count scanner.ahead).filterMap Piece.token? ∧
      (scanner.ask count).2.errors.toList = scanner.errors.toList ++
        (upToToken count scanner.ahead).filterMap Piece.error? ∧
      (scanner.ask count).2.source = scanner.source := by
  induction count generalizing scanner with
  | zero => simp [ask, upToToken]
  | succ count ih =>
    have hfinds := next?_finds scanner
    rcases hnext : scanner.next? with ⟨_ | t, after⟩ <;> rw [hnext] at hfinds
    · obtain ⟨faults, hpasses, hrest⟩ := hfinds
      have hstands := hpasses.stands h
      rw [Stands, hrest, Mark.after_nil] at hstands
      have hask : scanner.ask (count + 1) = ([after.here.endToken], after) := by
        simp only [ask, hnext, Mark.endToken, hstands]
      have hpart : upToToken (count + 1) scanner.ahead =
          faults.map .error ++ [.token after.here.endToken] := by
        rw [hpasses.ahead, ahead, hrest, yields_nil, Mark.after_nil, List.nil_append,
          upToToken_errors_token, upToToken_nil]
      rw [hask, hpart, List.filterMap_append, List.filterMap_append, filterMap_token?_map_error]
      refine ⟨rfl, ?_, hpasses.source⟩
      rw [← List.append_assoc, ← hpasses.errors]
      exact (List.append_nil _).symm
    · obtain ⟨faults, hpasses⟩ := hfinds
      obtain ⟨htokens, herrors, hsource⟩ := ih (hpasses.stands h)
      have hask : scanner.ask (count + 1) = (t :: (after.ask count).1, (after.ask count).2) := by
        simp only [ask, hnext]
      have hpart : upToToken (count + 1) scanner.ahead =
          (faults.map .error ++ [.token t]) ++ upToToken count after.ahead := by
        rw [hpasses.ahead, List.append_assoc, List.append_assoc]
        exact upToToken_errors_token count faults t after.ahead
      refine ⟨?_, ?_, ?_⟩
      · rw [hask, hpart, List.filterMap_append, List.filterMap_append, filterMap_token?_map_error,
          htokens]
        rfl
      · rw [hask, hpart, List.filterMap_append, ← List.append_assoc, ← hpasses.errors, herrors]
      · rw [hask, hsource, hpasses.source]

theorem ahead_rewind (scanner : Scanner) : scanner.rewind.ahead = pieces scanner.source := by
  rw [pieces, scanFrom_eq]
  rfl

theorem stands_rewind (scanner : Scanner) : scanner.rewind.Stands := by
  simp [Stands, rewind, Mark.offset_after, String.length_toList]

/-- A passage does not hang on those before it. -/
theorem iterate_eq (count : Nat) (scanner : Scanner) :
    (scanner.iterate count).1 = (scanPart scanner.source count).tokens ∧
      (scanner.iterate count).2.errors.toList =
        scanner.errors.toList ++ (scanPart scanner.source count).errors ∧
      (scanner.iterate count).2.source = scanner.source := by
  obtain ⟨htokens, herrors, hsource⟩ := ask_eq (count + 1) (stands_rewind scanner)
  rw [ahead_rewind] at htokens herrors
  refine ⟨?_, herrors, hsource⟩
  calc (scanner.iterate count).1
      = (scanner.rewind.ask (count + 1)).1.take count := rfl
    _ = (scanPart scanner.source count).tokens := by
        rw [htokens]
        rfl

/-- Whatever a scanner has been through, each further passage yields the first tokens of its
source, and what has been reported grows by the faults that lie before the token after them. -/
theorem iterations_eq_scan (counts : List Nat) (scanner : Scanner) :
    scanner.iterations counts = counts.mapIdx fun k count ↦
      ⟨(scan scanner.source).tokens.take count,
        scanner.errors.toList ++
          (counts.take k).flatMap (scan scanner.source).errorsBefore ++
          (scan scanner.source).errorsBefore count⟩ := by
  induction counts generalizing scanner with
  | nil => rfl
  | cons count counts ih =>
    obtain ⟨htokens, herrors, hsource⟩ := iterate_eq count scanner
    rw [scanPart_eq] at htokens herrors
    simp [iterations, htokens, herrors, ih, hsource, List.mapIdx_cons]

-- The second passage has to go past the fault to know of the token after it.
example : ((Scanner.ofSource "a @ b").iterations [0, 1, 0]).map
    (fun answer ↦ (answer.tokens.length, answer.errors.length)) = [(0, 0), (1, 1), (0, 1)] := by
  decide +kernel

end Scanner

end Lox
