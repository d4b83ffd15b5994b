import Lox.Decimal.Style
import Lox.Text.Quoted

/-!
# Atoms

The values that can be written down in a program: nil, the booleans, numbers and texts.
-/

namespace Lox

inductive Atom where
  | nil
  | bool (value : Bool)
  | number (value : Float)
  | text (value : String)

namespace Atom

/-- The text a program prints for an atom. -/
def display : Atom → String
  | .nil => "nil"
  | .bool true => "true"
  | .bool false => "false"
  | .number x => NumberStyle.plain.number x
  | .text s => s

/-- An atom as it would be written in a program. -/
def source : Atom → String
  | .text s => "\"" ++ s ++ "\""
  | a => a.display

/-- The text of an atom in the short form of a listing, where `None` stands for no atom. -/
def listed : Atom → String
  | .nil => "None"
  | .bool true => "True"
  | .bool false => "False"
  | .number x => NumberStyle.listing.number x
  | .text s => s

/-- The text of an atom in the long form of a listing, where texts are quoted. -/
def listing : Atom → String
  | .text s => Text.quoted s
  | a => a.listed

/-- Only nil and false count as false. -/
def truthy : Atom → Bool
  | .nil => false
  | .bool b => b
  | _ => true

/-- Atoms of different kinds are never equal, and a number that is not a number equals nothing. -/
def equal : Atom → Atom → Bool
  | .nil, .nil => true
  | .bool a, .bool b => a == b
  | .number x, .number y => x == y
  | .text s, .text t => s == t
  | _, _ => false

def numeral (b : Bool) : Float :=
  if b then 1 else 0

/-- Equality of the literals of tokens, for which true is one and false is zero. -/
def agrees : Atom → Atom → Bool
  | .bool b, .number x => numeral b == x
  | .number x, .bool b => x == numeral b
  | a, b => a.equal b

end Atom

end Lox
