import Lox.Proofs.Grammar
import Lox.Tree.Parse.Expr

/-!
# Recursive descent

Expressions read the plain way: one parser for each level of precedence, which reads its operands
with the parser of the next tighter level.  Levels that group from the left repeat themselves; a
sign before its operand, an assignment and whatever stands in parentheses come back to a level that
was passed before, and do so only after a token has been taken.

A parser is given some room, which bounds both how often a level repeats itself and how often
parsers come back to looser levels, one inside the other.  Neither can happen more often than there
are tokens.
-/

namespace Lox.Descent

open Lox.Parser

def oneOf (kinds : List Kind) : Parser (Option Token)
  | [] => .ok none []
  | token :: rest =>
    if token.kind ∈ kinds then .ok (some token) rest else .ok none (token :: rest)

def grouping (inside : Parser Expr) : Parser Expr := do
  let inner ← inside
  let _ ← expectSymbol .rightParen .expression
  pure (.grouping inner)

/-- Calls `callee`, then the result, and so on, for at most `count` lists of arguments. -/
def calls (room : Nat) (argument : Parser Expr) : (count : Nat) → Expr → Parser Expr
  | 0, callee => pure callee
  | count + 1, callee => do
    match ← oneOf [.leftParen] with
    | none => pure callee
    | some _ =>
      let arguments ← commaSeparated room argument
      let paren ← expectSymbol .rightParen .arguments
      calls room argument count (.call callee paren arguments)

/-- Applies at most `count` of the operators to `left` and one operand more each time. -/
def operations (operators : List Kind) (operand : Parser Expr) :
    (count : Nat) → Expr → Parser Expr
  | 0, left => pure left
  | count + 1, left => do
    match ← oneOf operators with
    | none => pure left
    | some operator =>
      let right ← operand
      operations operators operand count (Grammar.joined operator left right)

def assigned (value : Parser Expr) (target : Expr) : Parser Expr := do
  match ← oneOf [.equal] with
  | none => pure target
  | some equals =>
    let value ← value
    match target with
    | .var name => pure (.assign name value)
    | _ => reject equals .invalidTarget

/-! ## Levels -/

section

variable (room : Nat) (again : Precedence → Parser Expr)

def primary : Parser Expr
  | [] => .error (.interrupted .ranOut) []
  | token :: rest =>
    match Grammar.literal? token with
    | some value => .ok (.literal value) rest
    | none =>
      if token.kind = .identifier then .ok (.var token) rest
      else if token.kind = .leftParen then grouping (again .assignment) rest
      else .error (.invalid ⟨token, .noExpression⟩) (token :: rest)

def call : Parser Expr := do
  let callee ← primary again
  calls room (again .assignment) room callee

def unary : Parser Expr := do
  match ← oneOf Grammar.signs with
  | some operator => Expr.unary operator <$> again .unary
  | none => call room again

def grouped (level : Precedence) (operand : Parser Expr) : Parser Expr := do
  let left ← operand
  operations (Grammar.operators level) operand room left

def factor : Parser Expr := grouped room .factor (unary room again)

def term : Parser Expr := grouped room .term (factor room again)

def comparison : Parser Expr := grouped room .comparison (term room again)

def equality : Parser Expr := grouped room .equality (comparison room again)

def conjunction : Parser Expr := grouped room .and (equality room again)

def disjunction : Parser Expr := grouped room .or (conjunction room again)

def assignment : Parser Expr := do
  let target ← disjunction room again
  assigned (again .assignment) target

/-- The parser of a level; `again` is the way back to it and to all others. -/
def atLevel : Precedence → Parser Expr
  | .none | .assignment => assignment room again
  | .or => disjunction room again
  | .and => conjunction room again
  | .equality => equality room again
  | .comparison => comparison room again
  | .term => term room again
  | .factor => factor room again
  | .unary => unary room again
  | .call => call room again
  | .primary => primary again

end

def descend : (room : Nat) → Precedence → Parser Expr
  | 0, _ => interrupt .tooDeep
  | room + 1, level => atLevel room (descend room) level

/-- What stands at the front of some tokens, as far as the given level goes. -/
def read (level : Precedence) : Parser Expr := fun tokens ↦
  descend (tokens.length + 1) level tokens

/-- A level that groups from the left reads its operands with the next tighter level. -/
theorem atLevel_of_mem_operators {kind : Kind} {level : Precedence}
    (h : kind ∈ Grammar.operators level) (room : Nat) (again : Precedence → Parser Expr) :
    atLevel room again level = grouped room level (atLevel room again level.tighter) := by
  cases level with
  | none | assignment | unary | call | primary => cases h
  | or | and | equality | comparison | term | factor => rfl

end Lox.Descent
