import Lox.Token

/-!
# Precedence

How tightly operators bind.  An operator takes what stands to its left if it binds more tightly
than the operator before it.
-/

namespace Lox

/-- The levels of precedence, the loosest first. -/
inductive Precedence where
  | none | assignment | or | and | equality | comparison | term | factor | unary | call | primary
  deriving DecidableEq, Repr

namespace Precedence

def level : Precedence → Nat
  | .none => 1
  | .assignment => 2
  | .or => 3
  | .and => 4
  | .equality => 5
  | .comparison => 6
  | .term => 7
  | .factor => 8
  | .unary => 9
  | .call => 10
  | .primary => 11

def name : Precedence → String
  | .none => "NONE"
  | .assignment => "ASSIGNMENT"
  | .or => "OR"
  | .and => "AND"
  | .equality => "EQUALITY"
  | .comparison => "COMPARISON"
  | .term => "TERM"
  | .factor => "FACTOR"
  | .unary => "UNARY"
  | .call => "CALL"
  | .primary => "PRIMARY"

def looser : Precedence → Precedence
  | .none => .none
  | .assignment => .none
  | .or => .assignment
  | .and => .or
  | .equality => .and
  | .comparison => .equality
  | .term => .comparison
  | .factor => .term
  | .unary => .factor
  | .call => .unary
  | .primary => .call

end Precedence

namespace Kind

/-- The operators that follow an operand, with how tightly they bind. -/
def precedence? : Kind → Option Precedence
  | .leftParen => some .call
  | .star | .slash => some .factor
  | .plus | .minus => some .term
  | .greater | .greaterEqual | .less | .lessEqual => some .comparison
  | .equalEqual | .bangEqual => some .equality
  | .kwAnd => some .and
  | .kwOr => some .or
  | .equal => some .assignment
  | _ => none

/-- The operators that follow an operand, the tightest first. -/
def operators : List Kind :=
  [.leftParen, .star, .slash, .plus, .minus, .greater, .greaterEqual, .less, .lessEqual,
    .equalEqual, .bangEqual, .kwAnd, .kwOr, .equal]

/-- The precedence that the operand to the right of an operator has to exceed.  Assignment alone
groups to the right. -/
def rightBound (operator : Kind) (own : Precedence) : Precedence :=
  if operator = .equal then own.looser else own

end Kind

end Lox
