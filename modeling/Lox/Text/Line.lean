/-!
# Lines of a text

A text is cut into lines at line feeds, carriage returns, and the other characters that end a line
in Unicode.  A carriage return followed by a line feed is one break, and a break at the very end
of the text opens no further line.
-/

namespace Lox.Text

/-- The characters that end a line. -/
def isLineBreak (c : Char) : Bool :=
  let n := c.toNat
  (0x0A ≤ n && n ≤ 0x0D) || (0x1C ≤ n && n ≤ 0x1E) || n == 0x85 || n == 0x2028 || n == 0x2029

/-- The lines of `rest`, the first of which begins with `begun`, given last character first. -/
def linesFrom (begun : List Char) : List Char → List (List Char)
  | [] => if begun.isEmpty then [] else [begun.reverse]
  | '\r' :: '\n' :: rest => begun.reverse :: linesFrom [] rest
  | c :: rest =>
    if isLineBreak c then begun.reverse :: linesFrom [] rest else linesFrom (c :: begun) rest

/-- A text that is not empty has a line. -/
theorem linesFrom_ne_nil {begun rest : List Char} (h : begun ≠ [] ∨ rest ≠ []) :
    linesFrom begun rest ≠ [] := by
  fun_induction linesFrom begun rest with
  | case1 begun => simp_all
  | case2 | case3 | case4 => nofun
  | case5 begun c rest _ _ ih => exact ih (.inl nofun)

def lines (text : String) : List String :=
  (linesFrom [] text.toList).map String.ofList

/-- Every line of every block, moved in by a tab and closed by a line feed. -/
def indent (blocks : List String) : String :=
  String.join ((blocks.flatMap lines).map fun line ↦ "\t" ++ line ++ "\n")

/-- The characters of a text without the carriage returns before line feeds, after those in `done`,
given last first. -/
def joinReturnsAfter (done : List Char) : List Char → List Char
  | [] => done.reverse
  | '\r' :: '\n' :: rest => joinReturnsAfter ('\n' :: done) rest
  | c :: rest => joinReturnsAfter (c :: done) rest

/-- A text without the carriage returns before line feeds. -/
def joinReturns (text : String) : String :=
  String.ofList (joinReturnsAfter [] text.toList)

/-- The characters of a text with line feeds as its only line ends, after those in `done`, given
last first. -/
def unifyBreaksAfter (done : List Char) : List Char → List Char
  | [] => done.reverse
  | '\r' :: '\n' :: rest => unifyBreaksAfter ('\n' :: done) rest
  | c :: rest => unifyBreaksAfter ((if c = '\r' then '\n' else c) :: done) rest

/-- A text in which every carriage return, line feed, or pair of both is one line feed. -/
def unifyBreaks (text : String) : String :=
  String.ofList (unifyBreaksAfter [] text.toList)

/-- The text that a file holds; none if its bytes are no text. -/
def ofBytes? (bytes : ByteArray) : Option String :=
  (String.fromUTF8? bytes).map unifyBreaks

end Lox.Text
