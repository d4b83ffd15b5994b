import Lox.Token.Scan

/-!
# Scanning on demand

A scanner goes through its source one token at a time, only as far as it is asked to, and reports
faults as it comes upon them.  It can be asked to begin again at any time.  Where it stands belongs
to the scanner and not to one passage through the source: a passage that is given up leaves the
scanner in the midst of it.
-/

namespace Lox

structure Scanner where
  source : String
  /-- What has not been passed yet. -/
  rest : List Char
  /-- Where the scanner stands. -/
  here : Mark := ⟨1, 0⟩
  /-- Where the lexeme begins that was read last. -/
  start : Mark := ⟨1, 0⟩
  /-- The faults reported so far. -/
  errors : Array LexicalError := #[]

namespace Scanner

def ofSource (source : String) : Scanner :=
  { source, rest := source.toList }

def rewind (scanner : Scanner) : Scanner :=
  { scanner with
    rest := scanner.source.toList
    here := ⟨1, 0⟩
    start := ⟨scanner.start.line, 0⟩ }

/-- Passes what is read next. -/
def pass (scanner : Scanner) (cut : Cut) : Scanner :=
  { scanner with
    rest := cut.rest
    here := scanner.here.after cut.taken
    start := scanner.here }

def report (scanner : Scanner) (error : LexicalError) : Scanner :=
  { scanner with errors := scanner.errors.push error }

theorem length_pass_lt {scanner : Scanner} {c : Char} {rest : List Char}
    (h : scanner.rest = c :: rest) :
    (scanner.pass (Cut.first c rest)).rest.length < scanner.rest.length := by
  rw [h]
  exact Nat.lt_succ_of_le (Cut.first_divides c rest).length_rest_le

/-- Goes on to the next token, if there is one before the end of the source. -/
def next? (scanner : Scanner) : Option Token × Scanner :=
  match _h : scanner.rest with
  | [] => (none, scanner)
  | c :: rest =>
    let cut := Cut.first c rest
    let passed := scanner.pass cut
    match cut.piece? passed.start with
    | some (.token t) => (some t, passed)
    | some (.error e) => (passed.report e).next?
    | none => passed.next?
termination_by scanner.rest.length
decreasing_by all_goals exact length_pass_lt _h

/-- Asks for so many tokens.  The last there is marks the end of the source. -/
def ask : (count : Nat) → Scanner → List Token × Scanner
  | 0, scanner => ([], scanner)
  | count + 1, scanner =>
    match scanner.next? with
    | (some t, scanner) =>
      let (tokens, scanner) := ask count scanner
      (t :: tokens, scanner)
    | (none, scanner) => ([⟨.eof, "", .nil, scanner.here.line, scanner.source.length⟩], scanner)

/-- Begins again, and gives up on coming to the token after the first `count`. -/
def iterate (count : Nat) (scanner : Scanner) : List Token × Scanner :=
  let (tokens, scanner) := scanner.rewind.ask (count + 1)
  (tokens.take count, scanner)

/-- One passage after another: the tokens of each, and all that is reported by the end of it. -/
def iterations : (counts : List Nat) → Scanner → List Scan
  | [], _ => []
  | count :: counts, scanner =>
    let (tokens, scanner) := scanner.iterate count
    ⟨tokens, scanner.errors.toList⟩ :: iterations counts scanner

end Scanner

end Lox
