import Lox.Console
import Lox.Diagnostic
import Lox.Text.Line

/-!
# Excerpts

The line of a source at which a fault is reported, with the fault underlined.  A fault that spans
several lines is underlined on the first of them only.
-/

namespace Lox

/-- A source, also cut into lines. -/
structure Source where
  chars : List Char := []
  lines : List String := []

def Source.ofString (text : String) : Source :=
  ⟨text.toList, Text.lines text⟩

/-- A line of a source with a part of it marked. -/
structure Excerpt where
  line : Int
  text : String
  /-- How many characters of the line stand before the marked part. -/
  column : Nat
  /-- How many characters are marked. -/
  length : Nat

namespace Source

/-- How many characters stand between `offset` and the last line feed before it. -/
def column (source : Source) (offset : Nat) : Nat :=
  let before := source.chars.take offset
  offset - before.length + (before.reverse.takeWhile (· != '\n')).length

/-- The excerpt for a fault; there is none if the fault has no place in the source. -/
def excerpt? (source : Source) (d : Diagnostic) : Option Excerpt := do
  let line ← d.line
  let offset ← d.offset
  if line ≤ 0 ∨ offset < 0 then none
  else
    let text ← source.lines[line.toNat - 1]?
    let column := source.column offset.toNat
    if text.length < column then none
    else
      some ⟨line, text, column, (max 1 (min d.length (text.length - column : Nat))).toNat⟩

end Source

namespace Excerpt

/-- The number of the line, moved to the right of four places. -/
def gutter (excerpt : Excerpt) : String :=
  let number := toString excerpt.line
  String.ofList (List.replicate (4 - number.length) ' ') ++ number ++ " | "

def underline (excerpt : Excerpt) : String :=
  String.ofList ('^' :: List.replicate (excerpt.length - 1) '~')

def render (excerpt : Excerpt) (console : Console) : String :=
  let gutter := excerpt.gutter
  let indentation := String.ofList (List.replicate (gutter.length + excerpt.column) ' ')
  gutter ++ excerpt.text ++ "\n" ++ indentation ++ console.emphasise .fault excerpt.underline

end Excerpt

end Lox
