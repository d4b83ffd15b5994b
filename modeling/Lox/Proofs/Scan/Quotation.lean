import Lox.Proofs.Parse.Texts
import Lox.Proofs.Scan.Spelling

/-!
# Quotation

A text that is written in a source ends at the next quotation mark, so it has none in it.  And a
text without quotation marks is read back when it is put between two of them, whatever else is in
it.
-/

namespace Lox

def Unquoted (s : String) : Prop :=
  '"' ∉ s.toList

instance (s : String) : Decidable (Unquoted s) :=
  inferInstanceAs (Decidable (¬_))

theorem Unquoted.append {s t : String} (hs : Unquoted s) (ht : Unquoted t) : Unquoted (s ++ t) := by
  intro h
  rw [String.toList_append] at h
  rcases List.mem_append.mp h with h | h
  · exact hs h
  · exact ht h

def Value.isText (s : String) : Value → Bool
  | .atom (.text t) => t == s
  | _ => false

theorem Value.eq_of_isText {s : String} {value : Value} (h : value.isText s = true) :
    value = .atom (.text s) := by
  unfold isText at h
  split at h
  · rw [eq_of_beq h]
  · cases h

/-! ## Texts that are read -/

/-- The texts of the tokens of a source have no quotation marks. -/
theorem scan_supplies (source : String) : Grammar.Supplies Unquoted (scan source).tokens := by
  intro token htoken
  rcases scan_spelled htoken with hspelled | rfl
  · have hwritable := hspelled.writable
    cases hliteral : token.literal with
    | nil | bool | number => trivial
    | text s =>
      rw [hliteral] at hwritable
      exact hwritable
  · trivial

/-! ## Texts that are written -/

theorem after_quotation (s : String) :
    Mark.start.after ('"' :: (s.toList ++ ['"'])) =
      ⟨1 + s.toList.count '\n', s.length + 2⟩ := by
  simp [Mark.start, Mark.after, String.length_toList]

theorem yields_quotation {s : String} (h : Unquoted s) :
    yields .start ('"' :: (s.toList ++ ['"', ';'])) =
      [.token ⟨.string, "\"" ++ s ++ "\"", .text s, 1, 0⟩,
        .token ⟨.semicolon, ";", .nil, 1 + s.toList.count '\n', s.length + 2⟩] := by
  have hlexeme : String.ofList ('"' :: (s.toList ++ ['"'])) = "\"" ++ s ++ "\"" := by
    rw [← String.toList_inj]
    simp
  have hsemicolon : Cut.first ';' [] = ⟨.lexeme .semicolon .nil, [';'], []⟩ := rfl
  rw [yields_cons, Cut.first_quotation h, yields_cons, after_quotation, hsemicolon, yields_nil]
  simp only [Cut.piece?, hlexeme, String.ofList_toList]
  rfl

/-- A text without quotation marks, as a prompt shows it and with a semicolon behind it, is scanned
as this text and a semicolon. -/
theorem scan_quotation {s : String} (h : Unquoted s) :
    scan (Value.source (.atom (.text s)) ++ ";") =
      ⟨[⟨.string, "\"" ++ s ++ "\"", .text s, 1, 0⟩,
        ⟨.semicolon, ";", .nil, 1 + s.toList.count '\n', s.length + 2⟩,
        ⟨.eof, "", .nil, 1 + s.toList.count '\n', s.length + 3⟩], []⟩ := by
  have hsource : (Value.source (.atom (.text s)) ++ ";").toList =
      '"' :: (s.toList ++ ['"', ';']) := by
    simp [Value.source, Atom.source]
  have hend : (Mark.start.after ('"' :: (s.toList ++ ['"', ';']))).endToken =
      ⟨.eof, "", .nil, 1 + s.toList.count '\n', s.length + 3⟩ := by
    have hparts : '"' :: (s.toList ++ ['"', ';']) = '"' :: (s.toList ++ ['"']) ++ [';'] := by simp
    rw [hparts, Mark.after_append, after_quotation]
    rfl
  have htokens := scan_tokens_eq (Value.source (.atom (.text s)) ++ ";")
  have herrors := scan_errors_eq (Value.source (.atom (.text s)) ++ ";")
  rw [hsource, yields_quotation h] at htokens herrors
  rw [hend] at htokens
  exact congr (congrArg Scan.mk htokens) herrors

end Lox
