/-!
# Blank characters

The characters that only separate lexemes: the white space of Unicode together with the four
information separators of ASCII.
-/

namespace Lox.Text

/-- First and last code points of the runs of blank characters. -/
def blankRuns : List (Nat × Nat) :=
  [(0x09, 0x0D), (0x1C, 0x20), (0x85, 0x85), (0xA0, 0xA0), (0x1680, 0x1680), (0x2000, 0x200A),
    (0x2028, 0x2029), (0x202F, 0x202F), (0x205F, 0x205F), (0x3000, 0x3000)]

def isBlank (c : Char) : Bool :=
  blankRuns.any fun (first, last) ↦ first ≤ c.toNat && c.toNat ≤ last

end Lox.Text
