import Lox.Precedence
import Lox.Tree
import Lox.Tree.Fault

/-!
# Parsing expressions

Expressions are read by climbing precedences: an operand first, then operators as long as they bind
more tightly than the one that asked for the expression.

A parser is given the number of levels that may still be opened below it.  Each kind of nesting
uses up its own share of them, and an expression that needs more is refused.  Repetitions are
bounded by the number of tokens, which no repetition can exceed since each round takes a token.
-/

namespace Lox

/-- Reads something at the start of a token list and leaves the rest, also when it refuses. -/
abbrev Parser := EStateM Refusal (List Token)

namespace Parser

def interrupt {α : Type} (cause : Interruption) : Parser α :=
  throw (.interrupted cause)

def reject {α : Type} (token : Token) (cause : SyntaxCause) : Parser α :=
  throw (.invalid ⟨token, cause⟩)

def sees (kind : Kind) : Parser Bool
  | [] => .ok false []
  | token :: rest => .ok (token.kind = kind) (token :: rest)

def next : Parser Token :=
  Row.require.adaptExcept (.interrupted ∘ .ofFault)

def take : EStateM Interruption (List Token) Token :=
  Row.advance.adaptExcept .ofFault

def advance : Parser Token :=
  take.adaptExcept .interrupted

/-- Takes the next token if it is of the kind `kind`, and says whether it was. -/
def accepts (kind : Kind) : Parser Bool := do
  if ← sees kind then
    let _ ← advance
    pure true
  else
    pure false

/-- What `parser` reads after a token of the kind `kind`, if that comes next. -/
def after {α : Type} (kind : Kind) (parser : Parser α) : Parser (Option α) := do
  if ← accepts kind then some <$> parser else pure none

/-- What `parser` reads, unless a token of the kind `kind` comes next, which is left alone. -/
def unlessAt {α : Type} (kind : Kind) (parser : Parser α) : Parser (Option α) := do
  if ← sees kind then pure none else some <$> parser

def expect (kind : Kind) (cause : SyntaxCause) : Parser Token := do
  if ← sees kind then advance else reject (← next) cause

/-- Takes the symbol that belongs at `site`. -/
def expectSymbol (symbol : Kind) (site : Site) : Parser Token :=
  expect symbol (.noSymbol symbol site)

/-- At most `count` further items, each after a comma, in addition to those already read, which are
given last first. -/
def furtherItems {α : Type} (item : Parser α) : (count : Nat) → List α → Parser (List α)
  | 0, items => pure items.reverse
  | count + 1, items => do
    if ← accepts .comma then
      furtherItems item count ((← item) :: items)
    else
      pure items.reverse

/-- Items separated by commas, up to a closing parenthesis, which is left alone. -/
def commaSeparated {α : Type} (count : Nat) (item : Parser α) : Parser (List α) := do
  if ← sees .rightParen then
    pure []
  else
    furtherItems item count [← item]

def atEnd : List Token → Bool
  | [] => true
  | token :: _ => token.kind = .eof

def operand (nested : Precedence → Parser Expr) : Parser Expr := do
  let token ← next
  match token.kind with
  | .leftParen => passing group
  | .bang | .minus => passing (Expr.unary token <$> nested .unary)
  | .kwFalse => passing (pure (.literal (.bool false)))
  | .kwTrue => passing (pure (.literal (.bool true)))
  | .kwNil => passing (pure (.literal .nil))
  | .number | .string => passing (pure (.literal token.literal))
  | .identifier => passing (pure (.var token))
  | _ => reject token .noExpression
where
  passing (continued : Parser Expr) : Parser Expr := do
    let _ ← advance
    continued
  group : Parser Expr := do
    let inner ← nested .none
    let _ ← expectSymbol .rightParen .expression
    pure (.grouping inner)

def callOf (count : Nat) (argument : Parser Expr) (callee : Expr) : Parser Expr := do
  let arguments ← commaSeparated count argument
  let paren ← expectSymbol .rightParen .arguments
  pure (.call callee paren arguments)

/-- An operator applied to two operands.  Only a variable can be assigned to. -/
def combine (operator : Token) (left right : Expr) : Parser Expr :=
  match operator.kind with
  | .equal =>
    match left with
    | .var name => pure (.assign name right)
    | _ => reject operator .invalidTarget
  | .kwAnd | .kwOr => pure (.logical operator left right)
  | _ => pure (.binary operator left right)

/-- Extends `left` by at most `count` operators that bind more tightly than `least`.  `nested` reads
right operands and `argument` the arguments of calls. -/
def climb (size : Nat) (nested : Precedence → Parser Expr) (argument : Parser Expr)
    (least : Precedence) : (count : Nat) → Expr → Parser Expr
  | 0, left => pure left
  | count + 1, left => do
    if atEnd (← get) then
      pure left
    else
      let operator ← next
      match operator.kind.precedence? with
      | none => pure left
      | some own =>
        if least.level < own.level then
          let _ ← advance
          let left ←
            if operator.kind = .leftParen then
              callOf size argument left
            else do
              let right ← nested (operator.kind.rightBound own)
              combine operator left right
          climb size nested argument least count left
        else
          pure left

/-- An expression whose operators bind more tightly than `least`.  A parenthesis or a leading
operator opens two levels, a right operand one and the arguments of a call three. -/
def expression (size : Nat) : (levels : Nat) → (least : Precedence) → Parser Expr
  | levels + 3, least => do
    let left ← operand (expression size (levels + 1))
    climb size (expression size (levels + 2)) (expression size levels .none) least size left
  | _, _ => interrupt .tooDeep

end Parser

end Lox
