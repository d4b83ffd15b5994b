import Lox.Text.Line
import Lox.Tree

/-!
# Trees as text

Expressions are written in parentheses with the operator first, statements in angle brackets with
the statements inside them indented.

The text of a tree is put together from the texts of its parts, each of which needs a few levels more
than its own parts do.
-/

namespace Lox

mutual

def Expr.text : Expr → String
  | .literal value => value.source
  | .var name => "(variable " ++ name.lexeme ++ ")"
  | .assign name value => "(= " ++ name.lexeme ++ " " ++ value.text ++ ")"
  | .unary operator operand => "(" ++ operator.lexeme ++ " " ++ operand.text ++ ")"
  | .binary operator left right =>
    "(" ++ operator.lexeme ++ " " ++ left.text ++ " " ++ right.text ++ ")"
  | .logical operator left right =>
    "(" ++ operator.lexeme ++ " " ++ left.text ++ " " ++ right.text ++ ")"
  | .call callee _ arguments =>
    "(call " ++ callee.text ++ " [" ++ ", ".intercalate (Expr.texts arguments) ++ "])"
  | .grouping inner => "(grouping " ++ inner.text ++ ")"
  | .void => "( )"

def Expr.texts : List Expr → List String
  | [] => []
  | e :: es => e.text :: Expr.texts es

end

def Expr.text? : Option Expr → String
  | none => "None"
  | some e => e.text

/-- The text of a statement as far as it does not depend on the statements inside. -/
def Stmt.heading : Stmt → String
  | .block _ => "<block:\n"
  | .empty => "<empty>"
  | .expression value => "<expression: " ++ value.text ++ ">"
  | .function name params _ =>
    "<function: " ++ name.lexeme ++ ", [" ++ ", ".intercalate (params.map Token.lexeme) ++ "],\n"
  | .branch _ _ _ => "<if:\n"
  | .print value => "<print: " ++ value.text ++ ">"
  | .ret keyword value => "<return: " ++ keyword.lexeme ++ ", " ++ Expr.text? value ++ ">"
  | .declare name initial => "<var: " ++ name.lexeme ++ ", " ++ Expr.text? initial ++ ">"
  | .loop condition _ => "<while: " ++ condition.text ++ ",\n"
  | .void => "<: >"

mutual

def Stmt.text (stmt : Stmt) : String :=
  stmt.heading ++
    match stmt with
    | .block body => Text.indent (Stmt.texts body) ++ ">"
    | .function _ _ body => Text.indent (Stmt.texts body) ++ ">"
    | .branch condition yes no =>
      Text.indent [condition.text, yes.text, Stmt.text? no] ++ ">"
    | .loop _ body => Text.indent [body.text] ++ ">"
    | _ => ""

def Stmt.texts : List Stmt → List String
  | [] => []
  | s :: ss => s.text :: Stmt.texts ss

def Stmt.text? : Option Stmt → String
  | none => "None"
  | some s => s.text

end

/-! ## Room for a text -/

mutual

/-- How many levels are opened for writing an expression.  A part that is inserted into the text of
the whole opens three, one that is listed opens four. -/
def Expr.textLevels : Expr → Nat
  | .literal _ | .var _ | .void => 2
  | .assign _ part | .unary _ part => part.textLevels + 3
  | .binary _ left right | .logical _ left right => max left.textLevels right.textLevels + 3
  | .call callee _ arguments => max (callee.textLevels + 3) (Expr.textsLevels arguments + 4)
  | .grouping inner => inner.textLevels + 4

def Expr.textsLevels : List Expr → Nat
  | [] => 0
  | e :: es => max e.textLevels (Expr.textsLevels es)

end

def Expr.textLevels? : Option Expr → Nat
  | none => 0
  | some e => e.textLevels

mutual

/-- How many levels are opened for writing a statement. -/
def Stmt.textLevels : Stmt → Nat
  | .empty | .void => 2
  | .expression value | .print value => value.textLevels + 4
  | .ret _ value | .declare _ value => Expr.textLevels? value + 4
  | .block body | .function _ _ body => Stmt.textsLevels body + 4
  | .branch condition yes no =>
    max condition.textLevels (max yes.textLevels (Stmt.textLevels? no)) + 4
  | .loop condition body => max (condition.textLevels + 3) (body.textLevels + 2)

def Stmt.textsLevels : List Stmt → Nat
  | [] => 0
  | s :: ss => max s.textLevels (Stmt.textsLevels ss)

def Stmt.textLevels? : Option Stmt → Nat
  | none => 0
  | some s => s.textLevels

end

end Lox
