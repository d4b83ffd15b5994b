import Lox.Proofs.Scan.Tiling
import Lox.Proofs.Scan.Writing

/-!
# Unexpected characters

A character that begins nothing is reported and passed over.  Nothing else depends on it: neither
does it belong to any lexeme, nor does a lexeme before it look at it any differently than at a
space.  So if all such characters are replaced by spaces, the same tokens are found at the same
places, and the same faults but for these.
-/

namespace Lox

/-! ## Fading -/

/-- A character that begins neither a lexeme nor layout. -/
structure Senseless (c : Char) : Prop where
  symbol : Kind.single? c = none
  quote : c ≠ '"'
  blank : Text.isBlank c = false
  digit : c.isDigit = false
  name : Text.startsName c = false

/-- A character stays, or it begins nothing and a space takes its place. -/
def Fades (c d : Char) : Prop :=
  d = c ∨ Senseless c ∧ d = ' '

theorem Fades.refl (c : Char) : Fades c c :=
  .inl rfl

/-- Some of the characters that begin nothing are replaced by spaces. -/
abbrev Faded : List Char → List Char → Prop :=
  List.Forall₂ Fades

theorem Faded.refl (source : List Char) : Faded source source :=
  List.forall₂_same.mpr fun c _ ↦ .refl c

/-- A class of characters in which a character stays outside when it fades. -/
def Withstands (p : Char → Bool) : Prop :=
  ∀ c d, Fades c d → p c = false → p d = false

theorem withstands_of_space {p : Char → Bool} (h : p ' ' = false) : Withstands p := by
  rintro c d (rfl | ⟨-, rfl⟩) hc
  · exact hc
  · exact h

/-- A character that does begin something withstands by itself. -/
theorem withstands_of_ne {stop : Char} (h : ¬Senseless stop) : Withstands (· != stop) := by
  rintro c d (rfl | ⟨hc, -⟩) hstop
  · exact hstop
  · have heq : c = stop := by simpa using hstop
    exact absurd (heq ▸ hc) h

/-- A character that a space is no match for was there before. -/
theorem Fades.eq_of_ne {c d : Char} (h : Fades c d) (hd : d ≠ ' ') : c = d := by
  rcases h with rfl | ⟨-, rfl⟩
  · rfl
  · exact absurd rfl hd

/-- A run of characters ends where it did, although what is behind it fades. -/
theorem takeWhile_faded {p : Char → Bool} (hp : Withstands p) {source left after : List Char}
    (hdrop : source.dropWhile p = left) (h : Faded left after) :
    (source.takeWhile p ++ after).takeWhile p = source.takeWhile p ∧
      (source.takeWhile p ++ after).dropWhile p = after := by
  have hall : ∀ c ∈ source.takeWhile p, p c = true :=
    List.all_eq_true.mp List.all_takeWhile
  rw [List.takeWhile_append_of_pos hall, List.dropWhile_append_of_pos hall]
  cases h with
  | nil => simp
  | @cons c d rest rest' hd _ =>
    have hc : p c = false := by
      have hhead := List.head?_dropWhile_not p source
      rw [hdrop] at hhead
      exact hhead
    simp [hp c d hd hc]

namespace Cut

/-! ## Cuts before fading characters -/

/-- What is read first is read alike if characters behind it fade. -/
def Endures (read : List Char → Cut) (c : Char) (rest : List Char) : Prop :=
  ∀ more after, (read rest).taken = c :: more → Faded (read rest).rest after →
    read (more ++ after) = { read rest with rest := after }

theorem text_endures (c : Char) (rest : List Char) : Endures (text c) c rest := by
  intro more after htaken hfaded
  have hquote : Withstands (· != '"') := withstands_of_ne fun h ↦ h.quote rfl
  unfold text at htaken hfaded ⊢
  cases hdrop : rest.dropWhile (· != '"') with
  | nil =>
    simp only [hdrop] at htaken hfaded ⊢
    obtain rfl : rest.takeWhile (· != '"') = more := (List.cons.inj htaken).2
    obtain ⟨htake, hleft⟩ := takeWhile_faded hquote hdrop hfaded
    cases hfaded
    simp only [htake, hleft]
  | cons close behind =>
    simp only [hdrop] at htaken hfaded ⊢
    obtain rfl : rest.takeWhile (· != '"') ++ [close] = more := (List.cons.inj htaken).2
    obtain ⟨htake, hleft⟩ := takeWhile_faded hquote hdrop (.cons (.refl close) hfaded)
    rw [List.append_assoc, List.singleton_append]
    simp only [htake, hleft]

def GoesOn (rest : List Char) : Prop :=
  ∃ digit after, rest = '.' :: digit :: after ∧ digit.isDigit = true

theorem fraction_of_not_goesOn {rest : List Char} (h : ¬GoesOn rest) (whole : List Char) :
    fraction whole rest =
      ⟨.lexeme .number (.number (Decimal.ofDigits whole []).toFloat), whole, rest⟩ := by
  unfold fraction
  split
  · rename_i digit after
    rw [if_neg fun hdigit ↦ h ⟨digit, after, rfl, hdigit⟩]
  · rfl

/-- Neither a point nor a digit comes up where a character fades. -/
theorem GoesOn.of_faded {rest after : List Char} (hfaded : Faded rest after) (h : GoesOn after) :
    GoesOn rest := by
  obtain ⟨digit, behind, rfl, hdigit⟩ := h
  obtain ⟨p, rest, hp, hrest, rfl⟩ := List.forall₂_cons_right_iff.mp hfaded
  obtain ⟨d, rest, hd, -, rfl⟩ := List.forall₂_cons_right_iff.mp hrest
  have hspace : digit ≠ ' ' := by
    rintro rfl
    exact absurd hdigit (by decide)
  rw [hp.eq_of_ne (by decide), hd.eq_of_ne hspace]
  exact ⟨digit, rest, rfl, hdigit⟩

/-- A number goes on after its point as far as it did, or not at all. -/
theorem fraction_endures (whole : List Char) {rest more after : List Char}
    (htaken : (fraction whole rest).taken = whole ++ more)
    (hfaded : Faded (fraction whole rest).rest after) :
    fraction whole (more ++ after) = { fraction whole rest with rest := after } := by
  have hdigits : Withstands Char.isDigit := withstands_of_space (by decide)
  by_cases hgoes : GoesOn rest
  · obtain ⟨digit, rest, rfl, hdigit⟩ := hgoes
    simp only [fraction, hdigit, if_true] at htaken hfaded ⊢
    obtain rfl := List.append_cancel_left htaken
    obtain ⟨htake, hleft⟩ := takeWhile_faded hdigits rfl hfaded
    rw [List.takeWhile_cons_of_pos hdigit, List.cons_append] at htake hleft
    rw [List.takeWhile_cons_of_pos hdigit, List.cons_append, List.cons_append]
    simp only [hdigit, if_true, htake, hleft]
  · rw [fraction_of_not_goesOn hgoes] at htaken hfaded ⊢
    obtain rfl : more = [] := by simpa using htaken
    rw [List.nil_append, fraction_of_not_goesOn fun h ↦ hgoes (h.of_faded hfaded)]

theorem number_endures (c : Char) (rest : List Char) :
    Endures (fun rest ↦ number (c :: rest)) c rest := by
  intro more after htaken hfaded
  have hdigits : Withstands Char.isDigit := withstands_of_space (by decide)
  dsimp only [number] at htaken hfaded ⊢
  obtain ⟨tail, htail, hleft⟩ := taken_append_rest_fraction
    ((c :: rest).takeWhile Char.isDigit) ((c :: rest).dropWhile Char.isDigit)
  have hsource : c :: (more ++ after) =
      (c :: rest).takeWhile Char.isDigit ++ (tail ++ after) := by
    rw [← List.append_assoc, ← htail, htaken, List.cons_append]
  have hwhole : Faded ((c :: rest).dropWhile Char.isDigit) (tail ++ after) := by
    rw [← hleft]
    exact List.rel_append (Faded.refl tail) hfaded
  obtain ⟨htake, hdrop⟩ := takeWhile_faded hdigits rfl hwhole
  rw [hsource, htake, hdrop]
  exact fraction_endures _ htail hfaded

theorem word_endures (c : Char) (rest : List Char) :
    Endures (fun rest ↦ word (c :: rest)) c rest := by
  intro more after htaken hfaded
  have hname : Withstands Text.continuesName := withstands_of_space (by decide)
  dsimp only [word] at htaken hfaded ⊢
  obtain ⟨htake, hdrop⟩ := takeWhile_faded hname rfl hfaded
  rw [htaken, List.cons_append] at htake hdrop
  rw [htake, hdrop, htaken]

/-- A cut that takes one character looks at nothing else. -/
theorem endures_of_one {read : List Char → Cut} {c : Char} {reading : Reading}
    (h : ∀ rest, read rest = ⟨reading, [c], rest⟩) (rest : List Char) : Endures read c rest := by
  intro more after htaken _
  rw [h] at htaken ⊢
  obtain rfl := (List.cons.inj htaken).2
  rw [List.nil_append, h]

theorem other_endures (c : Char) (rest : List Char) : Endures (other c) c rest := by
  by_cases hquote : c = '"'
  · have heq : other c = text c := funext fun _ ↦ if_pos hquote
    exact heq ▸ text_endures c rest
  by_cases hblank : Text.isBlank c = true
  · exact endures_of_one (fun _ ↦ by rw [other, if_neg hquote, if_pos hblank]) rest
  by_cases hdigit : c.isDigit = true
  · have heq : other c = fun rest ↦ number (c :: rest) :=
      funext fun _ ↦ by rw [other, if_neg hquote, if_neg hblank, if_pos hdigit]
    exact heq ▸ number_endures c rest
  by_cases hname : Text.startsName c = true
  · have heq : other c = fun rest ↦ word (c :: rest) :=
      funext fun _ ↦ by rw [other, if_neg hquote, if_neg hblank, if_neg hdigit, if_pos hname]
    exact heq ▸ word_endures c rest
  · exact endures_of_one
      (fun _ ↦ by rw [other, if_neg hquote, if_neg hblank, if_neg hdigit, if_neg hname]) rest

theorem single_endures (c : Char) (rest : List Char) : Endures (single c) c rest := by
  cases hkind : Kind.single? c with
  | some kind => exact endures_of_one (fun _ ↦ by rw [single, hkind]) rest
  | none =>
    have heq : single c = other c := funext fun _ ↦ by rw [single, hkind]
    exact heq ▸ other_endures c rest

/-- The source as a whole fades if what is left of it does. -/
theorem Divides.faded {cut : Cut} {c : Char} {rest more after : List Char}
    (h : cut.Divides c rest) (htaken : cut.taken = c :: more) (hfaded : Faded cut.rest after) :
    Faded rest (more ++ after) := by
  obtain ⟨more', htaken', rfl⟩ := h
  obtain rfl := (List.cons.inj (htaken.symm.trans htaken')).2
  exact List.rel_append (Faded.refl more) hfaded

/-- The character makes a pair with the one that follows. -/
def Pairs (c : Char) (rest : List Char) : Prop :=
  ∃ d after kind, rest = d :: after ∧ Kind.pair? c d = some kind

theorem symbol_of_not_pairs {c : Char} {rest : List Char} (h : ¬Pairs c rest) :
    symbol c rest = single c rest := by
  cases rest with
  | nil => rfl
  | cons d rest =>
    have hpair : Kind.pair? c d = none :=
      Option.eq_none_iff_forall_ne_some.mpr fun kind hkind ↦ h ⟨d, rest, kind, rfl, hkind⟩
    rw [symbol, hpair]

theorem Pairs.of_faded {c : Char} {rest after : List Char} (hfaded : Faded rest after)
    (h : Pairs c after) : Pairs c rest := by
  obtain ⟨d, behind, kind, rfl, hkind⟩ := h
  obtain ⟨d', rest, hd, -, rfl⟩ := List.forall₂_cons_right_iff.mp hfaded
  have hspace : d ≠ ' ' := by
    rintro rfl
    unfold Kind.pair? at hkind
    split at hkind <;> simp_all
  rw [hd.eq_of_ne hspace]
  exact ⟨d, rest, kind, rfl, hkind⟩

theorem symbol_endures (c : Char) (rest : List Char) : Endures (symbol c) c rest := by
  intro more after htaken hfaded
  have hsource := (symbol_divides c rest).faded htaken hfaded
  by_cases hpairs : Pairs c rest
  · obtain ⟨d, rest, kind, rfl, hkind⟩ := hpairs
    simp only [symbol, hkind] at htaken ⊢
    obtain rfl := (List.cons.inj htaken).2
    simp only [List.singleton_append, hkind]
  · rw [symbol_of_not_pairs hpairs] at htaken hfaded ⊢
    rw [symbol_of_not_pairs fun h ↦ hpairs (h.of_faded hsource)]
    exact single_endures c rest more after htaken hfaded

theorem OpensComment.of_faded {c : Char} {rest after : List Char} (hfaded : Faded rest after)
    (h : OpensComment c after) : OpensComment c rest := by
  obtain ⟨behind, rfl, rfl⟩ := h
  obtain ⟨d, rest, hd, -, rfl⟩ := List.forall₂_cons_right_iff.mp hfaded
  rw [hd.eq_of_ne (by decide)]
  exact ⟨rest, rfl, rfl⟩

/-- Whatever a source begins with, it still does when characters behind it fade. -/
theorem first_endures (c : Char) (rest : List Char) : Endures (first c) c rest := by
  intro more after htaken hfaded
  have hsource := (first_divides c rest).faded htaken hfaded
  by_cases hcomment : OpensComment c rest
  · obtain ⟨rest, rfl, rfl⟩ := hcomment
    have hfeed : Withstands (· != '\n') := withstands_of_ne fun h ↦ absurd h.blank (by decide)
    rw [first_comment] at htaken hfaded ⊢
    obtain rfl := (List.cons.inj htaken).2
    obtain ⟨htake, hdrop⟩ := takeWhile_faded hfeed rfl hfaded
    have hslash : ('/' :: rest).takeWhile (· != '\n') = '/' :: rest.takeWhile (· != '\n') := rfl
    rw [hslash, List.cons_append] at htake hdrop
    rw [hslash, List.cons_append, first_comment, comment, htake, hdrop]
    rfl
  · rw [first_of_not_opensComment hcomment] at htaken hfaded ⊢
    rw [first_of_not_opensComment fun h ↦ hcomment (h.of_faded hsource)]
    exact symbol_endures c rest more after htaken hfaded

/-! ## Cuts of characters that begin nothing -/

/-- A character that begins nothing is reported by itself. -/
theorem first_of_senseless {c : Char} (h : Senseless c) (rest : List Char) :
    first c rest = ⟨.unexpected c, [c], rest⟩ := by
  rw [(first_of_single?_eq_none h.symbol rest).2]
  simp [other, h.quote, h.blank, h.digit, h.name]

theorem number_reading (source : List Char) :
    ∃ literal, (number source).reading = .lexeme .number literal := by
  unfold number fraction
  split
  · split
    · exact ⟨_, rfl⟩
    · exact ⟨_, rfl⟩
  · exact ⟨_, rfl⟩

/-- A character is found to begin nothing only if it is such a one. -/
theorem senseless_of_reading {c d : Char} {rest : List Char}
    (h : (first c rest).reading = .unexpected d) : Senseless c := by
  cases hsymbol : Kind.single? c with
  | some kind =>
    exfalso
    by_cases hcomment : OpensComment c rest
    · obtain ⟨rest, rfl, rfl⟩ := hcomment
      cases h
    rw [first_of_not_opensComment hcomment] at h
    by_cases hpairs : Pairs c rest
    · obtain ⟨d', rest, kind', rfl, hkind⟩ := hpairs
      simp only [symbol, hkind] at h
      cases h
    · rw [symbol_of_not_pairs hpairs, single, hsymbol] at h
      cases h
  | none =>
    rw [(first_of_single?_eq_none hsymbol rest).2] at h
    unfold other at h
    split at h
    · unfold text at h
      split at h
      · cases h
      · cases h
    rename_i hquote
    split at h
    · cases h
    rename_i hblank
    split at h
    · obtain ⟨literal, hnumber⟩ := number_reading (c :: rest)
      rw [hnumber] at h
      cases h
    rename_i hdigit
    split at h
    · cases h
    rename_i hname
    exact ⟨hsymbol, hquote, Bool.not_eq_true _ ▸ hblank, Bool.not_eq_true _ ▸ hdigit,
      Bool.not_eq_true _ ▸ hname⟩

/-- The characters that a cut takes, but a space for one that begins nothing. -/
def blanked (cut : Cut) : List Char :=
  match cut.reading with
  | .unexpected _ => [' ']
  | _ => cut.taken

theorem blanked_of_sensible {c : Char} (h : ¬Senseless c) (rest : List Char) :
    (first c rest).blanked = (first c rest).taken := by
  unfold blanked
  split
  · rename_i hreading
    exact absurd (senseless_of_reading hreading) h
  · rfl

theorem taken_faded (c : Char) (rest : List Char) :
    Faded (first c rest).taken (first c rest).blanked := by
  by_cases h : Senseless c
  · rw [first_of_senseless h]
    exact .cons (.inr ⟨h, rfl⟩) .nil
  · rw [blanked_of_sensible h]
    exact .refl _

end Cut

/-! ## Sources -/

theorem Fades.beq_lineFeed {c d : Char} (h : Fades c d) : (d == '\n') = (c == '\n') := by
  rcases h with rfl | ⟨hc, rfl⟩
  · rfl
  · have hfeed : c ≠ '\n' := by
      rintro rfl
      exact absurd hc.blank (by decide)
    simp [hfeed]

/-- Fading changes neither lines nor offsets. -/
theorem Faded.after_eq {source faded : List Char} (h : Faded source faded) (mark : Mark) :
    mark.after faded = mark.after source := by
  have hcount : faded.count '\n' = source.count '\n' := by
    induction h with
    | nil => rfl
    | cons hc _ ih => rw [List.count_cons, List.count_cons, ih, hc.beq_lineFeed]
  rw [Mark.after, Mark.after, h.length_eq, hcount]

/-- A source that begins at `mark`, with spaces for the characters that begin nothing. -/
def blankedFrom (mark : Mark) (source : List Char) : List Char :=
  (tiles mark source).flatMap fun tile ↦ tile.cut.blanked

theorem blankedFrom_cons (mark : Mark) (c : Char) (rest : List Char) :
    blankedFrom mark (c :: rest) = (Cut.first c rest).blanked ++
      blankedFrom (mark.after (Cut.first c rest).taken) (Cut.first c rest).rest := by
  rw [blankedFrom, tiles, List.flatMap_cons]
  rfl

/-- Nothing fades but what begins nothing. -/
theorem blankedFrom_faded (mark : Mark) (source : List Char) :
    Faded source (blankedFrom mark source) := by
  fun_induction tiles mark source with
  | case1 mark =>
    rw [blankedFrom, tiles]
    exact .nil
  | case2 mark c rest ih =>
    rw [blankedFrom_cons, ← Cut.taken_append_rest c rest]
    exact List.rel_append (Cut.taken_faded c rest) ih

def LexicalError.isUnexpected (e : LexicalError) : Bool :=
  e.cause.message == "Unexpected character."

def Piece.isUnexpected : Piece → Bool
  | .token _ => false
  | .error e => e.isUnexpected

theorem Cut.filter_piece? {c : Char} (h : ¬Senseless c) (rest : List Char) (mark : Mark) :
    ((Cut.first c rest).piece? mark).toList.filter (!·.isUnexpected) =
      ((Cut.first c rest).piece? mark).toList := by
  unfold piece?
  cases hreading : (first c rest).reading with
  | layout | lexeme | unterminated => rfl
  | unexpected d => exact absurd (senseless_of_reading hreading) h

/-- With spaces for the characters that begin nothing, all else is found as before. -/
theorem yields_blanked (mark : Mark) (source : List Char) :
    yields mark (blankedFrom mark source) =
      (yields mark source).filter (!·.isUnexpected) := by
  fun_induction tiles mark source with
  | case1 mark =>
    rw [blankedFrom, tiles]
    simp only [List.flatMap_nil, yields_nil, List.filter_nil]
  | case2 mark c rest ih =>
    rw [blankedFrom_cons, yields_cons mark c rest, List.filter_append, ← ih]
    by_cases hc : Senseless c
    · rw [Cut.first_of_senseless hc]
      have hspace : mark.after [' '] = mark.after [c] :=
        Faded.after_eq (.cons (.inr ⟨hc, rfl⟩) .nil) mark
      change yields mark (' ' :: _) = _
      rw [yields_blank (by decide), hspace]
      rfl
    · have hfaded := blankedFrom_faded (mark.after (Cut.first c rest).taken) (Cut.first c rest).rest
      obtain ⟨more, htaken, -⟩ := Cut.first_divides c rest
      have hsource (after : List Char) :
          (Cut.first c rest).taken ++ after = c :: (more ++ after) := by
        rw [htaken, List.cons_append]
      rw [Cut.blanked_of_sensible hc, Cut.filter_piece? hc, hsource, yields_cons,
        Cut.first_endures c rest more _ htaken hfaded]
      rfl

/-! ## Where spaces are put -/

def errorsFrom (mark : Mark) (source : List Char) : List LexicalError :=
  (tiles mark source).filterMap Tile.error?

theorem errorsFrom_cons (mark : Mark) (c : Char) (rest : List Char) :
    errorsFrom mark (c :: rest) = (Tile.error? ⟨mark, Cut.first c rest⟩).toList ++
      errorsFrom (mark.after (Cut.first c rest).taken) (Cut.first c rest).rest := by
  rw [errorsFrom, tiles, List.filterMap_cons]
  cases Tile.error? ⟨mark, Cut.first c rest⟩ <;> rfl

/-- An unexpected character is reported at the given offset. -/
def reported (errors : List LexicalError) (offset : Nat) : Bool :=
  errors.any fun e ↦ e.isUnexpected && e.offset == offset

theorem reported_append (errors others : List LexicalError) (offset : Nat) :
    reported (errors ++ others) offset = (reported errors offset || reported others offset) :=
  List.any_append

theorem reported_senseless {c : Char} (h : Senseless c) (mark : Mark) (rest : List Char)
    (offset : Nat) :
    reported (Tile.error? ⟨mark, Cut.first c rest⟩).toList offset = (mark.offset == offset) := by
  rw [Cut.first_of_senseless h]
  exact Bool.or_false _

theorem reported_sensible {c : Char} (h : ¬Senseless c) (mark : Mark) (rest : List Char)
    (offset : Nat) : reported (Tile.error? ⟨mark, Cut.first c rest⟩).toList offset = false := by
  unfold Tile.error? Cut.piece?
  cases hreading : (Cut.first c rest).reading with
  | layout | lexeme | unterminated => rfl
  | unexpected d => exact absurd (Cut.senseless_of_reading hreading) h

/-- Nothing is reported before the source begins. -/
theorem reported_eq_false {mark : Mark} {offset : Nat} (h : offset < mark.offset)
    (source : List Char) : reported (errorsFrom mark source) offset = false := by
  refine List.any_eq_false.mpr fun e he ↦ ?_
  obtain ⟨tile, htile, herror⟩ := List.mem_filterMap.mp he
  obtain ⟨before, -, hmark, -, hfair⟩ := mem_tiles htile
  have hoffset : e.offset = tile.mark.offset :=
    congrArg Span.start (Tile.span_error hfair herror).1
  have hbehind : tile.mark.offset = mark.offset + before.length := congrArg Mark.offset hmark
  have hne : e.offset ≠ offset := by omega
  simp [hne]

/-- What is taken first stays as it is if nothing is reported before what is left. -/
theorem mapIdx_taken (mark : Mark) (taken rest : List Char) :
    (taken.mapIdx fun i c ↦
      if reported (errorsFrom (mark.after taken) rest) (mark.offset + i) then ' ' else c) =
      taken := by
  apply List.ext_getElem
  · simp
  · intro i hi hi'
    have hbefore : mark.offset + i < (mark.after taken).offset :=
      Nat.add_lt_add_left hi' mark.offset
    simp [reported_eq_false hbefore]

/-- Spaces stand exactly where an unexpected character is reported. -/
theorem blankedFrom_eq (mark : Mark) (source : List Char) :
    blankedFrom mark source = source.mapIdx fun i c ↦
      if reported (errorsFrom mark source) (mark.offset + i) then ' ' else c := by
  fun_induction tiles mark source with
  | case1 mark =>
    rw [blankedFrom, tiles]
    rfl
  | case2 mark c rest ih =>
    rw [blankedFrom_cons, ih, errorsFrom_cons]
    simp only [reported_append]
    by_cases hc : Senseless c
    · simp only [reported_senseless hc]
      rw [Cut.first_of_senseless hc, List.mapIdx_cons]
      have hnext (i : Nat) : mark.offset + (i + 1) = (mark.after [c]).offset + i := by
        rw [Mark.offset_after, List.length_singleton]
        omega
      have hbehind (i : Nat) : (mark.offset == (mark.after [c]).offset + i) = false := by
        rw [← hnext, beq_eq_false_iff_ne]
        omega
      simp only [Nat.add_zero, beq_self_eq_true, Bool.true_or, if_true, hnext, hbehind,
        Bool.false_or]
      rfl
    · simp only [reported_sensible hc, Bool.false_or, Cut.blanked_of_sensible hc]
      have hnext (i : Nat) : mark.offset + (i + (Cut.first c rest).taken.length) =
          (mark.after (Cut.first c rest).taken).offset + i := by
        rw [Mark.offset_after]
        omega
      rw [← Cut.taken_append_rest c rest, List.mapIdx_append, mapIdx_taken]
      simp only [hnext]

/-- A text in which a space stands for every character that is reported as unexpected. -/
def blanked (source : String) : String :=
  String.ofList (source.toList.mapIdx fun i c ↦
    if reported (scan source).errors i then ' ' else c)

-- Within texts and comments all characters stay.
example : blanked "1.@ =#= \"@\" //@" = "1.  = = \"@\" //@" := by decide +kernel

theorem toList_blanked (source : String) :
    (blanked source).toList = blankedFrom .start source.toList := by
  rw [blanked, String.toList_ofList, blankedFrom_eq, scan_errors]
  simp only [Mark.start, Nat.zero_add]
  rfl

theorem filterMap_token?_filter (pieces : List Piece) :
    (pieces.filter (!·.isUnexpected)).filterMap Piece.token? = pieces.filterMap Piece.token? := by
  rw [List.filterMap_filter]
  apply List.filterMap_congr
  intro piece _
  cases piece with
  | token t => rfl
  | error e => exact ite_self _

theorem filterMap_error?_filter (pieces : List Piece) :
    (pieces.filter (!·.isUnexpected)).filterMap Piece.error? =
      (pieces.filterMap Piece.error?).filter (!·.isUnexpected) := by
  rw [List.filterMap_filter, List.filter_filterMap]
  apply List.filterMap_congr
  intro piece _
  cases piece with
  | token t => rfl
  | error e =>
    cases h : e.isUnexpected <;> simp [Piece.isUnexpected, Piece.error?, Option.filter, h]

/-- An unexpected character acts like a blank.  If a space stands for every character that is
reported as unexpected, then the same tokens are found, and the same faults but for these. -/
theorem unexpected_acts_as_blank (source : String) :
    (scan (blanked source)).tokens = (scan source).tokens ∧
      (scan (blanked source)).errors =
        (scan source).errors.filter fun e ↦ e.diagnostic.message ≠ "Unexpected character." := by
  have hyields := yields_blanked .start source.toList
  have hend := (blankedFrom_faded .start source.toList).after_eq .start
  have hmessage (e : LexicalError) :
      (!e.isUnexpected) = decide (e.diagnostic.message ≠ "Unexpected character.") :=
    (decide_not).symm
  rw [← toList_blanked] at hyields hend
  constructor
  · rw [scan_tokens_eq, scan_tokens_eq, hyields, hend, filterMap_token?_filter]
  · simp only [scan_errors_eq, hyields, filterMap_error?_filter, hmessage]

end Lox
