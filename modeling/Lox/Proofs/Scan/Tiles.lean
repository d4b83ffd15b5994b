import Lox.Token.Scan

/-!
# Tiles

Scanning cuts a source into tiles, one right after the other, and every tile is a lexeme, a fault or
layout.  Tokens and faults are read off the tiles, each at the mark where its tile begins, and the
mark behind the last tile is where the source ends.
-/

namespace Lox

namespace Mark

@[simp]
theorem after_nil (mark : Mark) : mark.after [] = mark := by
  simp [after]

theorem after_append (mark : Mark) (first second : List Char) :
    mark.after (first ++ second) = (mark.after first).after second := by
  simp [after, Nat.add_assoc]

def endToken (mark : Mark) : Token :=
  ⟨.eof, "", .nil, mark.line, mark.offset⟩

end Mark

theorem Cut.taken_append_rest (c : Char) (rest : List Char) :
    (Cut.first c rest).taken ++ (Cut.first c rest).rest = c :: rest := by
  obtain ⟨more, htaken, hrest⟩ := Cut.first_divides c rest
  rw [htaken, List.cons_append, hrest]

theorem after_taken_rest (mark : Mark) (c : Char) (rest : List Char) :
    (mark.after (Cut.first c rest).taken).after (Cut.first c rest).rest = mark.after (c :: rest) := by
  rw [← Mark.after_append, Cut.taken_append_rest]

/-- A cut together with the mark where it begins. -/
structure Tile where
  mark : Mark
  cut : Cut

namespace Tile

def stop (tile : Tile) : Nat :=
  tile.mark.offset + tile.cut.taken.length

def token? (tile : Tile) : Option Token :=
  (tile.cut.piece? tile.mark).bind Piece.token?

def error? (tile : Tile) : Option LexicalError :=
  (tile.cut.piece? tile.mark).bind Piece.error?

end Tile

def tiles (mark : Mark) (source : List Char) : List Tile :=
  match source with
  | [] => []
  | c :: rest =>
    ⟨mark, Cut.first c rest⟩ ::
      tiles (mark.after (Cut.first c rest).taken) (Cut.first c rest).rest
termination_by source.length
decreasing_by exact Nat.lt_succ_of_le (Cut.first_divides c rest).length_rest_le

theorem exists_first_of_mem_tiles {mark : Mark} {source : List Char} {tile : Tile}
    (h : tile ∈ tiles mark source) : ∃ c rest, tile.cut = Cut.first c rest := by
  fun_induction tiles mark source with
  | case1 => cases h
  | case2 mark c rest ih =>
    rcases List.mem_cons.mp h with rfl | h
    · exact ⟨c, rest, rfl⟩
    · exact ih h

/-- What is found is what was found before, then what the tiles yield, then the end. -/
theorem scanFrom_eq (found : List Piece) (mark : Mark) (source : List Char) :
    scanFrom found mark source =
      found.reverse ++ (tiles mark source).filterMap (fun tile ↦ tile.cut.piece? tile.mark) ++
        [.token (mark.after source).endToken] := by
  fun_induction scanFrom found mark source with
  | case1 found mark => simp [tiles, Mark.endToken]
  | case2 found mark c rest cut found' ih =>
    have hmark : (mark.after cut.taken).after cut.rest = mark.after (c :: rest) :=
      after_taken_rest mark c rest
    rw [ih, hmark, tiles]
    cases hpiece : cut.piece? mark with
    | none => simp [found', cut, hpiece]
    | some piece => simp [found', cut, hpiece]

def Mark.start : Mark := ⟨1, 0⟩

/-- The tokens of a source are those of its tiles, and the mark of the end. -/
theorem scan_tokens (source : String) :
    (scan source).tokens = (tiles .start source.toList).filterMap Tile.token? ++
      [(Mark.start.after source.toList).endToken] := by
  calc (scan source).tokens
      = (scanFrom [] .start source.toList).filterMap Piece.token? := rfl
    _ = (tiles .start source.toList).filterMap Tile.token? ++
          [(Mark.start.after source.toList).endToken] := by
        rw [scanFrom_eq, List.reverse_nil, List.nil_append, List.filterMap_append,
          List.filterMap_filterMap]
        rfl

/-- The faults of a source are those of its tiles. -/
theorem scan_errors (source : String) :
    (scan source).errors = (tiles .start source.toList).filterMap Tile.error? := by
  calc (scan source).errors
      = (scanFrom [] .start source.toList).filterMap Piece.error? := rfl
    _ = (tiles .start source.toList).filterMap Tile.error? ++ [] := by
        rw [scanFrom_eq, List.reverse_nil, List.nil_append, List.filterMap_append,
          List.filterMap_filterMap]
        rfl
    _ = (tiles .start source.toList).filterMap Tile.error? := List.append_nil _

end Lox
