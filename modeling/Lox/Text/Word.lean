/-!
# Letters, digits and words

Names are made of ASCII letters, underscores and ASCII digits, and do not begin with a digit.
The tests on single characters are what reading a source needs; the tests on whole texts extend
them to texts of any length.
-/

namespace Lox.Text

def startsName (c : Char) : Bool :=
  c.isAlpha || c == '_'

/-- The characters that can stand in a name after its first. -/
def continuesName (c : Char) : Bool :=
  startsName c || c.isDigit

/-- A text that begins a name: an underscore, or one letter or more. -/
def isNameStart (text : String) : Bool :=
  text == "_" || (text != "" && text.toList.all Char.isAlpha)

def occursIn (part : List Char) : List Char → Bool
  | [] => part.isEmpty
  | c :: rest => part.isPrefixOf (c :: rest) || occursIn part rest

/-- A text that continues a name: one that begins a name, or a run of ascending digits. -/
def isNamePart (text : String) : Bool :=
  isNameStart text || occursIn text.toList "0123456789".toList

/-- A run of ascending digits, where zero follows nine. -/
def isNumeral (text : String) : Bool :=
  occursIn text.toList "1234567890".toList

end Lox.Text
