import Lox.Token

/-!
# Trees

The expressions and statements of a program.  They keep the tokens at which a fault would be
reported.  Both have a node without content, which means nothing and cannot be executed.
-/

namespace Lox

inductive Expr where
  | literal (value : Atom)
  | var (name : Token)
  | assign (name : Token) (value : Expr)
  | unary (operator : Token) (operand : Expr)
  | binary (operator : Token) (left right : Expr)
  /-- An operator that may leave its right operand alone. -/
  | logical (operator : Token) (left right : Expr)
  /-- A call, with the parenthesis that closes it. -/
  | call (callee : Expr) (paren : Token) (arguments : List Expr)
  | grouping (inner : Expr)
  | void

instance : Inhabited Expr := ⟨.void⟩

inductive Stmt where
  | block (body : List Stmt)
  | empty
  | expression (value : Expr)
  | function (name : Token) (params : List Token) (body : List Stmt)
  | branch (condition : Expr) (yes : Stmt) (no : Option Stmt)
  | print (value : Expr)
  /-- A return, with its keyword. -/
  | ret (keyword : Token) (value : Option Expr)
  | declare (name : Token) (initial : Option Expr)
  | loop (condition : Expr) (body : Stmt)
  | void

instance : Inhabited Stmt := ⟨.void⟩

end Lox
