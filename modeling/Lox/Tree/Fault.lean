import Lox.Cursor
import Lox.Diagnostic

/-!
# Faults in the form of a program

What a token list can lack to be a program, each fault located at one of its tokens.
-/

namespace Lox

inductive Site where
  | variableDeclaration | value | expression | returnValue | loopCondition | functionName
  | forKeyword | ifKeyword | whileKeyword | parameters | forClauses | ifCondition | condition
  | arguments | functionBody | block
  deriving DecidableEq, Repr

def Site.phrase : Site → String
  | .variableDeclaration => "after variable declaration"
  | .value => "after value"
  | .expression => "after expression"
  | .returnValue => "after return value"
  | .loopCondition => "after loop condition"
  | .functionName => "after function name"
  | .forKeyword => "after 'for'"
  | .ifKeyword => "after 'if'"
  | .whileKeyword => "after 'while'"
  | .parameters => "after parameters"
  | .forClauses => "after for clauses"
  | .ifCondition => "after if condition"
  | .condition => "after condition"
  | .arguments => "after arguments"
  | .functionBody => "before function body"
  | .block => "after block"

inductive SyntaxCause where
  | noExpression
  | noVariableName
  | noFunctionName
  | noParameterName
  | noSymbol (symbol : Kind) (site : Site)
  /-- What stands before an equals sign is no variable. -/
  | invalidTarget
  | returnOutside
  deriving DecidableEq, Repr

def SyntaxCause.message : SyntaxCause → String
  | .noExpression => "Expect expression."
  | .noVariableName => "Expect variable name."
  | .noFunctionName => "Expect function name."
  | .noParameterName => "Expect parameter name."
  | .noSymbol symbol site => "Expect '" ++ symbol.mark ++ "' " ++ site.phrase ++ "."
  | .invalidTarget => "Invalid assignment target."
  | .returnOutside => "Can't return from top-level code."

structure SyntaxError where
  token : Token
  cause : SyntaxCause

def SyntaxError.diagnostic (e : SyntaxError) : Diagnostic :=
  .atToken .syntactic e.token e.cause.message

/-- Why parsing cannot go on at all. -/
inductive Interruption where
  /-- There is no room for nesting any deeper. -/
  | tooDeep
  /-- The tokens ended without a mark of their end. -/
  | ranOut
  /-- A token was to be taken behind the last one. -/
  | pastEnd
  deriving DecidableEq, Repr

/-- What it means for parsing that the tokens do not reach far enough. -/
def Interruption.ofFault : CursorFault → Interruption
  | .exhausted => .pastEnd
  | .missing => .ranOut

/-- Why a construct could not be read. -/
inductive Refusal where
  | invalid (error : SyntaxError)
  | interrupted (cause : Interruption)

end Lox
