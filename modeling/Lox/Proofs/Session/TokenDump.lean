import Lox.Proofs.Scan.LiteralText
import Lox.Proofs.Scan.Quotation
import Lox.Session

/-!
# Dumps of tokens read back

The short form of a dump has a row for each token: the name of its kind, its lexeme and its literal.
Given the lexemes, the rows can be told apart, even where texts have line feeds in them, and each
row gives the kind back.  It gives the text of the literal back unless this is a text in which
`None` occurs, which is shown with `null` in its place.
-/

namespace Lox

/-! ## Rows -/

/-- What a dump tells of a token besides its lexeme. -/
structure Row where
  kind : Kind
  literal : String
  deriving DecidableEq, Repr

def Kind.ofName? (name : List Char) : Option Kind :=
  all.find? (·.name.toList == name)

theorem Kind.ofName?_name (kind : Kind) : ofName? kind.name.toList = some kind := by
  cases kind <;> decide

theorem Kind.blank_notMem_name (kind : Kind) : ' ' ∉ kind.name.toList := by
  cases kind <;> decide

namespace Row

def line (lexeme : String) (row : Row) : List Char :=
  row.kind.name.toList ++ ' ' :: (lexeme.toList ++ ' ' :: (row.literal.toList ++ ['\n']))

/-- Reads the row for a token with the given lexeme, and leaves what follows it. -/
def read? (lexeme : String) (text : List Char) : Option (Row × List Char) := do
  let kind ← Kind.ofName? (text.takeWhile (· != ' '))
  let rest ← (text.dropWhile (· != ' ')).dropPrefix? (' ' :: (lexeme.toList ++ [' ']))
  -- A text may have line feeds in it, but it is as long as its lexeme without quotation marks.
  let size := if kind = .string then lexeme.length - 2 else (rest.takeWhile (· != '\n')).length
  let after ← (rest.drop size).dropPrefix? ['\n']
  return (⟨kind, String.ofList (rest.take size)⟩, after)

/-- Reads a row for each of the lexemes, and nothing else. -/
def readAll? : List String → List Char → Option (List Row)
  | [], text => if text.isEmpty then some [] else none
  | lexeme :: lexemes, text => do
    let (row, rest) ← read? lexeme text
    let rows ← readAll? lexemes rest
    return row :: rows

/-- The end of the row can be found if the lexeme is known. -/
structure Fits (row : Row) (lexeme : String) : Prop where
  text : row.kind = .string → row.literal.length = lexeme.length - 2
  other : row.kind ≠ .string → '\n' ∉ row.literal.toList

theorem Fits.size_eq {row : Row} {lexeme : String} (h : row.Fits lexeme) (rest : List Char) :
    (if row.kind = .string then lexeme.length - 2
      else ((row.literal.toList ++ '\n' :: rest).takeWhile (· != '\n')).length) =
      row.literal.toList.length := by
  split_ifs with hkind
  · rw [String.length_toList, h.text hkind]
  · rw [takeWhile_append_run (forall_bne_of_not_mem (h.other hkind)) (by simp)]

/-- With its lexeme, a row is read back, and what follows it is left. -/
theorem Fits.read?_line {row : Row} {lexeme : String} (h : row.Fits lexeme) (rest : List Char) :
    read? lexeme (row.line lexeme ++ rest) = some (row, rest) := by
  have hname := forall_bne_of_not_mem row.kind.blank_notMem_name
  have hline : row.line lexeme ++ rest = row.kind.name.toList ++
      ' ' :: (lexeme.toList ++ ' ' :: (row.literal.toList ++ '\n' :: rest)) := by
    simp [line]
  have hlexeme : (' ' :: (lexeme.toList ++ ' ' :: (row.literal.toList ++ '\n' :: rest))).dropPrefix?
      (' ' :: (lexeme.toList ++ [' '])) = some (row.literal.toList ++ '\n' :: rest) := by
    rw [List.dropPrefix?_eq_some_iff]
    exact ⟨' ' :: (lexeme.toList ++ [' ']), by simp, by simp⟩
  have hend : ('\n' :: rest).dropPrefix? ['\n'] = some rest := by
    rw [List.dropPrefix?_eq_some_iff]
    exact ⟨['\n'], rfl, rfl⟩
  rw [hline, read?, takeWhile_append_run hname (by simp), List.dropWhile_append_of_pos hname,
    row.kind.ofName?_name]
  simp only [Option.bind_eq_bind, Option.bind_some, List.dropWhile_cons, bne_self_eq_false,
    Bool.false_eq_true, if_false, hlexeme, h.size_eq, List.drop_left, List.take_left, hend,
    String.ofList_toList, Option.pure_def]

end Row

/-! ## Dumps -/

namespace Token

def row (token : Token) : Row :=
  ⟨token.kind, token.shown⟩

theorem LiteralFollows.fits {token : Token} (h : token.LiteralFollows) :
    token.row.Fits token.lexeme where
  text := h.length_shown_of_string
  other hkind := by
    have hshown : token.row.literal = token.literalText := h.shown_eq_of_ne_string hkind
    rw [hshown]
    exact h.notMem_literalText hkind (by decide) (by decide)

theorem toList_shortListing (token : Token) :
    token.shortListing.toList ++ ['\n'] = token.row.line token.lexeme := by
  simp [shortListing_eq, lineWith, Row.line, row]

end Token

def rowLines (tokens : List Token) : List Char :=
  tokens.flatMap fun token ↦ token.row.line token.lexeme

/-- All rows are read back, since each is read back whatever follows it. -/
theorem readAll?_rowLines {tokens : List Token} (h : ∀ token ∈ tokens, token.LiteralFollows) :
    Row.readAll? (tokens.map Token.lexeme) (rowLines tokens) = some (tokens.map Token.row) := by
  induction tokens with
  | nil => rfl
  | cons token tokens ih =>
    obtain ⟨htoken, htokens⟩ := List.forall_mem_cons.mp h
    rw [rowLines, List.flatMap_cons, List.map_cons, Row.readAll?, htoken.fits.read?_line,
      ← rowLines, Option.bind_eq_bind, Option.bind_some]
    simp only [ih htokens, Option.bind_eq_bind, Option.bind_some, Option.pure_def, List.map_cons]

/-- The line feeds between the lines and the one behind the last end a row each. -/
theorem toList_dump {tokens : List Token} (h : tokens ≠ []) :
    ("\n".intercalate (tokens.map Token.shortListing) ++ "\n").toList = rowLines tokens := by
  obtain ⟨token, tokens, rfl⟩ := List.exists_cons_of_ne_nil h
  rw [String.toList_append, String.toList_intercalate]
  clear h
  induction tokens generalizing token with
  | nil => simpa [rowLines] using token.toList_shortListing
  | cons next tokens ih =>
    have hrows : rowLines (token :: next :: tokens) =
        token.row.line token.lexeme ++ rowLines (next :: tokens) := List.flatMap_cons
    rw [hrows, ← ih next, ← token.toList_shortListing]
    simp only [List.map_cons, List.intercalate_cons_cons, List.append_assoc]
    rfl

theorem Session.out_dumpTokens_short {session : Session} (hdump : session.has .dumpTokens = true)
    (hshort : session.has .shortTokens = true) {tokens : List Token} (h : tokens ≠ []) :
    (session.dumpTokens tokens).machine.console.out =
      session.machine.console.out ++ String.ofList (rowLines tokens) := by
  rw [← toList_dump h, String.ofList_toList, dumpTokens, if_pos hdump, if_pos hshort]
  exact String.append_assoc

theorem scan_tokens_ne_nil (source : String) : (scan source).tokens ≠ [] := by
  simp [scan_tokens]

/-- Rows are exact just if no token holds `None`. -/
theorem map_row_eq_iff {tokens : List Token} (h : ∀ token ∈ tokens, token.LiteralFollows) :
    tokens.map Token.row = tokens.map (fun token ↦ ⟨token.kind, token.literalText⟩) ↔
      ∀ token ∈ tokens, ¬token.HoldsNone := by
  rw [List.map_inj_left]
  refine forall₂_congr fun token htoken ↦ ?_
  rw [Token.row, Row.mk.injEq, (h token htoken).shown_eq_literalText_iff]
  simp

/-- The short form of every token of a source has the name of its kind, its lexeme, and the text of
its literal with every `None` in it replaced by `null`.  The literal follows from the lexeme, and
its text is listed as it is unless it is a text that holds `None`.  So a dump, read with the lexemes
at hand, gives back the kinds of all tokens and what is shown of their literals, and these are the
texts of all literals just if no text holds `None`. -/
theorem token_dump_exact_iff (source : String) :
    let tokens := (scan source).tokens
    (∀ token ∈ tokens, token.LiteralFollows ∧
      token.shortListing = token.lineWith token.shown ∧
      Text.Replaced "None".toList "null".toList token.literalText.toList token.shown.toList ∧
      (token.shortListing = token.lineWith token.literalText ↔ ¬token.HoldsNone)) ∧
    ∀ session : Session, session.has .dumpTokens = true → session.has .shortTokens = true →
      ∃ dump : String,
        (session.dumpTokens tokens).machine.console.out = session.machine.console.out ++ dump ∧
        Row.readAll? (tokens.map Token.lexeme) dump.toList = some (tokens.map Token.row) ∧
        (Row.readAll? (tokens.map Token.lexeme) dump.toList =
            some (tokens.map fun token ↦ ⟨token.kind, token.literalText⟩) ↔
          ∀ token ∈ tokens, ¬token.HoldsNone) := by
  intro tokens
  have hfollows : ∀ token ∈ tokens, token.LiteralFollows :=
    fun _ ↦ Token.literalFollows_of_mem_scan
  refine ⟨fun token htoken ↦ ⟨hfollows token htoken, token.shortListing_eq,
    token.shown_replaced, ?_⟩, fun session hdump hshort ↦ ?_⟩
  · rw [token.shortListing_eq, Token.lineWith_inj]
    exact (hfollows token htoken).shown_eq_literalText_iff
  · have hread := readAll?_rowLines hfollows
    refine ⟨_, session.out_dumpTokens_short hdump hshort (scan_tokens_ne_nil source), ?_⟩
    rw [String.toList_ofList, hread]
    exact ⟨rfl, Option.some_inj.trans (map_row_eq_iff hfollows)⟩

/-- A text that goes on like a row of the dump, and a number with an exponent. -/
theorem deceptive_text_recovered :
    let source := "x = \"a\nEOF  null\" + 0.0000125;"
    let tokens := (scan source).tokens
    let session := Session.new [.shortTokens, .dumpTokens] true false
    session.has .dumpTokens = true ∧ session.has .shortTokens = true ∧
      (∀ token ∈ tokens, ¬token.HoldsNone) ∧
      ∃ dump : String, (session.dumpTokens tokens).machine.console.out = dump ∧
        dump = "IDENTIFIER x null\nEQUAL = null\nSTRING \"a\nEOF  null\" a\nEOF  null\n" ++
          "PLUS + null\nNUMBER 0.0000125 1.25e-05\nSEMICOLON ; null\nEOF  null\n" ∧
        Row.readAll? (tokens.map Token.lexeme) dump.toList =
          some [⟨.identifier, "null"⟩, ⟨.equal, "null"⟩, ⟨.string, "a\nEOF  null"⟩,
            ⟨.plus, "null"⟩, ⟨.number, "1.25e-05"⟩, ⟨.semicolon, "null"⟩, ⟨.eof, "null"⟩] := by
  intro source tokens session
  have hdump : session.has .dumpTokens = true := by decide
  have hshort : session.has .shortTokens = true := by decide
  have hnone : ∀ token ∈ tokens, ¬token.HoldsNone := by decide +kernel
  have hrows : tokens.map (fun token ↦ (⟨token.kind, token.literalText⟩ : Row)) =
      [⟨.identifier, "null"⟩, ⟨.equal, "null"⟩, ⟨.string, "a\nEOF  null"⟩, ⟨.plus, "null"⟩,
        ⟨.number, "1.25e-05"⟩, ⟨.semicolon, "null"⟩, ⟨.eof, "null"⟩] := by
    decide +kernel
  obtain ⟨dump, hout, -, hread⟩ := (token_dump_exact_iff source).2 session hdump hshort
  have hempty : session.machine.console.out = "" := rfl
  rw [hempty, String.empty_append] at hout
  refine ⟨hdump, hshort, hnone, dump, hout, ?_, ?_⟩
  · rw [← hout]
    decide +kernel
  · rw [hread.mpr hnone, hrows]

/-- The text `None` is listed, and read back from the dump, as if it were `null`. -/
theorem none_shown_as_null :
    let source := "\"None\";"
    let tokens := (scan source).tokens
    let token : Token := ⟨.string, "\"None\"", .text "None", 1, 0⟩
    let session := Session.new [.shortTokens, .dumpTokens] true false
    token ∈ tokens ∧ token.lineWith token.literalText = "STRING \"None\" None" ∧
      token.shortListing = "STRING \"None\" null" ∧
      (session.dumpTokens tokens).machine.console.out =
        "STRING \"None\" null\nSEMICOLON ; null\nEOF  null\n" ∧
      Row.readAll? (tokens.map Token.lexeme)
          (session.dumpTokens tokens).machine.console.out.toList =
        some [⟨.string, "null"⟩, ⟨.semicolon, "null"⟩, ⟨.eof, "null"⟩] := by
  intro source tokens token session
  have hsource : Value.source (.atom (.text "None")) ++ ";" = source := by decide +kernel
  have htokens : tokens = (scan (Value.source (.atom (.text "None")) ++ ";")).tokens :=
    congrArg (fun source ↦ (scan source).tokens) hsource.symm
  refine ⟨?_, by decide +kernel, by decide +kernel, by decide +kernel, by decide +kernel⟩
  rw [htokens, scan_quotation (s := "None") (by decide)]
  exact List.mem_cons_self

end Lox
