import Lox.Atom

/-!
# Tokens

A token is a lexeme with its kind, the value it stands for if it is a literal, and the place where
it begins.  Symbols and keywords each have a kind of their own.
-/

namespace Lox

inductive Kind where
  | leftParen | rightParen | leftBrace | rightBrace | comma | dot | minus | plus | semicolon
  | star | bang | equal | greater | less | bangEqual | equalEqual | greaterEqual | lessEqual
  | slash
  | kwAnd | kwClass | kwElse | kwFalse | kwFor | kwFun | kwIf | kwNil | kwOr | kwPrint | kwReturn
  | kwSuper | kwThis | kwTrue | kwVar | kwWhile
  | identifier | string | number | eof
  deriving DecidableEq, Repr

namespace Kind

/-- Every kind, symbols first, then keywords. -/
def all : List Kind :=
  [.leftParen, .rightParen, .leftBrace, .rightBrace, .comma, .dot, .minus, .plus, .semicolon,
    .star, .bang, .equal, .greater, .less, .bangEqual, .equalEqual, .greaterEqual, .lessEqual,
    .slash, .kwAnd, .kwClass, .kwElse, .kwFalse, .kwFor, .kwFun, .kwIf, .kwNil, .kwOr, .kwPrint,
    .kwReturn, .kwSuper, .kwThis, .kwTrue, .kwVar, .kwWhile, .identifier, .string, .number, .eof]

def name : Kind → String
  | .leftParen => "LEFT_PAREN"
  | .rightParen => "RIGHT_PAREN"
  | .leftBrace => "LEFT_BRACE"
  | .rightBrace => "RIGHT_BRACE"
  | .comma => "COMMA"
  | .dot => "DOT"
  | .minus => "MINUS"
  | .plus => "PLUS"
  | .semicolon => "SEMICOLON"
  | .star => "STAR"
  | .bang => "BANG"
  | .equal => "EQUAL"
  | .greater => "GREATER"
  | .less => "LESS"
  | .bangEqual => "BANG_EQUAL"
  | .equalEqual => "EQUAL_EQUAL"
  | .greaterEqual => "GREATER_EQUAL"
  | .lessEqual => "LESS_EQUAL"
  | .slash => "SLASH"
  | .kwAnd => "AND"
  | .kwClass => "CLASS"
  | .kwElse => "ELSE"
  | .kwFalse => "FALSE"
  | .kwFor => "FOR"
  | .kwFun => "FUN"
  | .kwIf => "IF"
  | .kwNil => "NIL"
  | .kwOr => "OR"
  | .kwPrint => "PRINT"
  | .kwReturn => "RETURN"
  | .kwSuper => "SUPER"
  | .kwThis => "THIS"
  | .kwTrue => "TRUE"
  | .kwVar => "VAR"
  | .kwWhile => "WHILE"
  | .identifier => "IDENTIFIER"
  | .string => "STRING"
  | .number => "NUMBER"
  | .eof => "EOF"

/-- The text that marks a kind: a symbol's own characters, a keyword's name after an at sign, or a
description in angle brackets. -/
def mark : Kind → String
  | .leftParen => "("
  | .rightParen => ")"
  | .leftBrace => "\x7b"
  | .rightBrace => "\x7d"
  | .comma => ","
  | .dot => "."
  | .minus => "-"
  | .plus => "+"
  | .semicolon => ";"
  | .star => "*"
  | .bang => "!"
  | .equal => "="
  | .greater => ">"
  | .less => "<"
  | .bangEqual => "!="
  | .equalEqual => "=="
  | .greaterEqual => ">="
  | .lessEqual => "<="
  | .slash => "/"
  | .kwAnd => "@AND"
  | .kwClass => "@CLASS"
  | .kwElse => "@ELSE"
  | .kwFalse => "@FALSE"
  | .kwFor => "@FOR"
  | .kwFun => "@FUN"
  | .kwIf => "@IF"
  | .kwNil => "@NIL"
  | .kwOr => "@OR"
  | .kwPrint => "@PRINT"
  | .kwReturn => "@RETURN"
  | .kwSuper => "@SUPER"
  | .kwThis => "@THIS"
  | .kwTrue => "@TRUE"
  | .kwVar => "@VAR"
  | .kwWhile => "@WHILE"
  | .identifier => "<identifier>"
  | .string => "<string>"
  | .number => "<number>"
  | .eof => "<eof>"

def keyword? : String → Option Kind
  | "and" => some .kwAnd
  | "class" => some .kwClass
  | "else" => some .kwElse
  | "false" => some .kwFalse
  | "for" => some .kwFor
  | "fun" => some .kwFun
  | "if" => some .kwIf
  | "nil" => some .kwNil
  | "or" => some .kwOr
  | "print" => some .kwPrint
  | "return" => some .kwReturn
  | "super" => some .kwSuper
  | "this" => some .kwThis
  | "true" => some .kwTrue
  | "var" => some .kwVar
  | "while" => some .kwWhile
  | _ => none

def single? : Char → Option Kind
  | '(' => some .leftParen
  | ')' => some .rightParen
  | '\x7b' => some .leftBrace
  | '\x7d' => some .rightBrace
  | ',' => some .comma
  | '.' => some .dot
  | '-' => some .minus
  | '+' => some .plus
  | ';' => some .semicolon
  | '*' => some .star
  | '!' => some .bang
  | '=' => some .equal
  | '>' => some .greater
  | '<' => some .less
  | '/' => some .slash
  | _ => none

def pair? : Char → Char → Option Kind
  | '!', '=' => some .bangEqual
  | '=', '=' => some .equalEqual
  | '>', '=' => some .greaterEqual
  | '<', '=' => some .lessEqual
  | _, _ => none

def isKeyword (kind : Kind) : Bool :=
  "@".isPrefixOf kind.mark

def singleMarks : List String :=
  (all.map mark).filter fun mark ↦ mark.length == 1

def pairMarks : List String :=
  (all.map mark).filter fun mark ↦ mark.length == 2

def keywords : List (String × Kind) :=
  (all.filter isKeyword).map fun kind ↦ (kind.name.map Char.toLower, kind)

end Kind

/-- A token. The line is counted from one, the offset in characters from the start of the text;
a token that comes from no text has the offset `-1`. -/
structure Token where
  kind : Kind
  lexeme : String
  /-- The value of a literal; `nil` for every other token. -/
  literal : Atom := .nil
  line : Int
  offset : Int := -1

namespace Token

/-- Tokens agree if they have the same kind, lexeme, literal and line, wherever they stand. -/
def agrees (a b : Token) : Bool :=
  a.kind == b.kind && a.lexeme == b.lexeme && a.literal.agrees b.literal && a.line == b.line

def sameKey (a b : Token) : Bool :=
  a.kind == b.kind && a.lexeme == b.lexeme && a.line == b.line

/-- The long form of a token in listings. -/
def listing (token : Token) : String :=
  token.kind.name ++ ": lexeme=" ++ Text.quoted token.lexeme ++ ", literal="
    ++ token.literal.listing ++ ", line=" ++ toString token.line

/-- Every occurrence of `None` in a text becomes `null`. -/
def nullForNone : List Char → List Char
  | [] => []
  | 'N' :: 'o' :: 'n' :: 'e' :: rest => 'n' :: 'u' :: 'l' :: 'l' :: nullForNone rest
  | c :: rest => c :: nullForNone rest

/-- The short form of a token in listings: kind, lexeme and literal, where a missing literal is
written `null`. -/
def shortListing (token : Token) : String :=
  token.kind.name ++ " " ++ token.lexeme ++ " "
    ++ String.ofList (nullForNone token.literal.listed.toList)

end Token

end Lox
