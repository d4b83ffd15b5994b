import Lox.Diagnostic
import Lox.Text.Blank
import Lox.Text.Word

/-!
# Scanning

A source is cut into pieces from left to right: lexemes, faults, and the layout between them.
Every cut takes at least one character, so the pieces follow one another until nothing is left.
A fault spans what it spoils, and scanning goes on right after it.
-/

namespace Lox

/-- What the first characters of a source are. -/
inductive Reading where
  /-- Blanks, line ends and comments. -/
  | layout
  | lexeme (kind : Kind) (literal : Atom)
  /-- A character that begins nothing. -/
  | unexpected (c : Char)
  /-- A text whose closing quotation mark is missing. -/
  | unterminated

/-- A source divided into what is read first and the rest. -/
structure Cut where
  reading : Reading
  taken : List Char
  rest : List Char

namespace Cut

def text (quote : Char) (rest : List Char) : Cut :=
  let body := rest.takeWhile (· != '"')
  match rest.dropWhile (· != '"') with
  | [] => ⟨.unterminated, quote :: body, []⟩
  | close :: rest => ⟨.lexeme .string (.text (String.ofList body)), quote :: (body ++ [close]), rest⟩

/-- The number with `whole` before its point, if what follows is a point and a digit, and the whole
number otherwise. -/
def fraction (whole : List Char) : List Char → Cut
  | '.' :: digit :: rest =>
    if digit.isDigit then
      let digits := (digit :: rest).takeWhile Char.isDigit
      ⟨.lexeme .number (.number (Decimal.ofDigits whole digits).toFloat), whole ++ '.' :: digits,
        (digit :: rest).dropWhile Char.isDigit⟩
    else
      ⟨.lexeme .number (.number (Decimal.ofDigits whole []).toFloat), whole, '.' :: digit :: rest⟩
  | rest => ⟨.lexeme .number (.number (Decimal.ofDigits whole []).toFloat), whole, rest⟩

def number (source : List Char) : Cut :=
  fraction (source.takeWhile Char.isDigit) (source.dropWhile Char.isDigit)

def word (source : List Char) : Cut :=
  let taken := source.takeWhile Text.continuesName
  ⟨.lexeme ((Kind.keyword? (String.ofList taken)).getD .identifier) .nil, taken,
    source.dropWhile Text.continuesName⟩

def other (c : Char) (rest : List Char) : Cut :=
  if c = '"' then text c rest
  else if Text.isBlank c then ⟨.layout, [c], rest⟩
  else if c.isDigit then number (c :: rest)
  else if Text.startsName c then word (c :: rest)
  else ⟨.unexpected c, [c], rest⟩

/-- The symbol `c`, or what else begins with it. -/
def single (c : Char) (rest : List Char) : Cut :=
  match Kind.single? c with
  | some kind => ⟨.lexeme kind .nil, [c], rest⟩
  | none => other c rest

/-- The longest symbol at the start of `c :: rest`, or what else begins there. -/
def symbol (c : Char) : List Char → Cut
  | [] => single c []
  | d :: rest =>
    match Kind.pair? c d with
    | some kind => ⟨.lexeme kind .nil, [c, d], rest⟩
    | none => single c (d :: rest)

/-- What the source `c :: rest` begins with.  Two slashes open a comment, which runs up to the next
line feed. -/
def first (c : Char) (rest : List Char) : Cut :=
  match c, rest with
  | '/', '/' :: _ => ⟨.layout, c :: rest.takeWhile (· != '\n'), rest.dropWhile (· != '\n')⟩
  | _, _ => symbol c rest

end Cut

inductive LexicalCause where
  | unexpected (c : Char)
  | unterminated
  deriving DecidableEq, Repr

def LexicalCause.message : LexicalCause → String
  | .unexpected _ => "Unexpected character."
  | .unterminated => "Unterminated string."

structure LexicalError where
  cause : LexicalCause
  line : Nat
  offset : Nat
  length : Nat
  deriving DecidableEq, Repr

def LexicalError.diagnostic (e : LexicalError) : Diagnostic where
  category := .lexical
  line := some e.line
  message := e.cause.message
  place := match e.cause with
    | .unexpected c => "at '" ++ String.singleton c ++ "'"
    | .unterminated => ""
  offset := some e.offset
  length := e.length

/-- What scanning finds, one after the other. -/
inductive Piece where
  | token (token : Token)
  | error (error : LexicalError)

namespace Piece

def token? : Piece → Option Token
  | .token t => some t
  | .error _ => none

def error? : Piece → Option LexicalError
  | .token _ => none
  | .error e => some e

end Piece

/-- A line of the source and a number of characters before it. -/
structure Mark where
  line : Nat
  offset : Nat

namespace Mark

/-- The mark after some more characters; only line feeds begin a new line. -/
def after (mark : Mark) (taken : List Char) : Mark :=
  ⟨mark.line + taken.count '\n', mark.offset + taken.length⟩

end Mark

/-- The piece that a cut yields, unless it is layout. -/
def Cut.piece? (cut : Cut) (mark : Mark) : Option Piece :=
  match cut.reading with
  | .layout => none
  | .lexeme kind literal =>
    some (.token ⟨kind, String.ofList cut.taken, literal, mark.line, mark.offset⟩)
  | .unexpected c => some (.error ⟨.unexpected c, mark.line, mark.offset, 1⟩)
  | .unterminated => some (.error ⟨.unterminated, mark.line, mark.offset, cut.taken.length⟩)

namespace Cut

/-- The cut divides the source `c :: rest`, and takes at least `c`. -/
def Divides (cut : Cut) (c : Char) (rest : List Char) : Prop :=
  ∃ more, cut.taken = c :: more ∧ more ++ cut.rest = rest

theorem Divides.length_rest_le {cut : Cut} {c : Char} {rest : List Char}
    (h : cut.Divides c rest) : cut.rest.length ≤ rest.length := by
  obtain ⟨more, -, rfl⟩ := h
  simp

theorem text_divides (quote : Char) (rest : List Char) : (text quote rest).Divides quote rest := by
  have h := List.takeWhile_append_dropWhile (p := (· != '"')) (l := rest)
  unfold text
  split
  · rename_i eq
    refine ⟨_, rfl, ?_⟩
    rwa [eq] at h
  · rename_i close after eq
    refine ⟨_, rfl, ?_⟩
    rw [eq] at h
    simpa using h

theorem taken_append_rest_fraction (whole rest : List Char) :
    ∃ more, (fraction whole rest).taken = whole ++ more ∧
      more ++ (fraction whole rest).rest = rest := by
  unfold fraction
  split
  · split
    · exact ⟨_, rfl, by simp⟩
    · exact ⟨[], by simp, rfl⟩
  · exact ⟨[], by simp, rfl⟩

theorem number_divides {c : Char} (hc : c.isDigit = true) (rest : List Char) :
    (number (c :: rest)).Divides c rest := by
  obtain ⟨more, htaken, hrest⟩ := taken_append_rest_fraction
    ((c :: rest).takeWhile Char.isDigit) ((c :: rest).dropWhile Char.isDigit)
  rw [List.takeWhile_cons_of_pos hc] at htaken
  refine ⟨rest.takeWhile Char.isDigit ++ more, ?_, ?_⟩
  · simpa [number, List.takeWhile_cons_of_pos hc] using htaken
  · rw [List.append_assoc]
    simp only [number, hrest]
    rw [List.dropWhile_cons_of_pos hc]
    exact List.takeWhile_append_dropWhile

theorem word_divides {c : Char} (hc : Text.startsName c = true) (rest : List Char) :
    (word (c :: rest)).Divides c rest := by
  have hc : Text.continuesName c = true := by simp [Text.continuesName, hc]
  refine ⟨rest.takeWhile Text.continuesName, ?_, ?_⟩
  · simp [word, List.takeWhile_cons_of_pos hc]
  · simp [word, List.dropWhile_cons_of_pos hc]

theorem other_divides (c : Char) (rest : List Char) : (other c rest).Divides c rest := by
  unfold other
  split
  · exact text_divides c rest
  · split
    · exact ⟨[], rfl, rfl⟩
    · split
      · exact number_divides ‹_› rest
      · split
        · exact word_divides ‹_› rest
        · exact ⟨[], rfl, rfl⟩

theorem single_divides (c : Char) (rest : List Char) : (single c rest).Divides c rest := by
  unfold single
  split
  · exact ⟨[], rfl, rfl⟩
  · exact other_divides c rest

theorem symbol_divides (c : Char) (rest : List Char) : (symbol c rest).Divides c rest := by
  unfold symbol
  split
  · exact single_divides c []
  · split
    · exact ⟨[_], rfl, rfl⟩
    · exact single_divides c _

/-- Nothing is lost where a source is cut, and every cut takes something. -/
theorem first_divides (c : Char) (rest : List Char) : (first c rest).Divides c rest := by
  unfold first
  split
  · exact ⟨_, rfl, List.takeWhile_append_dropWhile⟩
  · exact symbol_divides c rest

end Cut

/-- Scans `source`, which begins at `mark`, after the pieces `found`, given last first.  The end of
the source is a token too. -/
def scanFrom (found : List Piece) (mark : Mark) (source : List Char) : List Piece :=
  match source with
  | [] => (.token ⟨.eof, "", .nil, mark.line, mark.offset⟩ :: found).reverse
  | c :: rest =>
    let cut := Cut.first c rest
    let found := match cut.piece? mark with
      | some piece => piece :: found
      | none => found
    scanFrom found (mark.after cut.taken) cut.rest
termination_by source.length
decreasing_by exact Nat.lt_succ_of_le (Cut.first_divides c rest).length_rest_le

def pieces (source : String) : List Piece :=
  scanFrom [] ⟨1, 0⟩ source.toList

structure Scan where
  tokens : List Token
  errors : List LexicalError

def Scan.ofPieces (pieces : List Piece) : Scan :=
  ⟨pieces.filterMap Piece.token?, pieces.filterMap Piece.error?⟩

def scan (source : String) : Scan :=
  .ofPieces (pieces source)

/-- The pieces up to and including token number `count`, or all if there are fewer tokens. -/
def upToToken : (count : Nat) → List Piece → List Piece
  | 0, _ => []
  | _, [] => []
  | count + 1, .token t :: pieces => .token t :: upToToken count pieces
  | count + 1, .error e :: pieces => .error e :: upToToken (count + 1) pieces

/-- What is known after asking for `count` tokens and then for one more, which is dropped. -/
def scanPart (source : String) (count : Nat) : Scan :=
  let part := Scan.ofPieces (upToToken (count + 1) (pieces source))
  { part with tokens := part.tokens.take count }

end Lox
