import Lox.Token

/-!
# Diagnostics

A diagnostic says what is wrong with a program and where.  Its category tells at which stage the
fault was found; an overflow means that the program asked for more room than there is.
-/

namespace Lox

inductive Category where
  | general
  | lexical
  | syntactic
  | runtime
  | overflow
  deriving DecidableEq, Repr

namespace Category

def name : Category → String
  | .general => "LoxError"
  | .lexical => "LoxLexicalError"
  | .syntactic => "LoxSyntaxError"
  | .runtime => "LoxRuntimeError"
  | .overflow => "LoxStackOverflowError"

/-- Whether a fault is found before anything is executed. -/
def isStatic : Category → Bool
  | .lexical | .syntactic => true
  | _ => false

end Category

/-- A function call in progress: the name of the function, and the line where the call ends. -/
structure Frame where
  name : String
  line : Int
  deriving DecidableEq, Repr

/-- A fault in a program. -/
structure Diagnostic where
  category : Category
  /-- The line of the fault; none if it has no place in the text. -/
  line : Option Int
  message : String
  /-- What stands at the place of the fault, in words. -/
  place : String := ""
  offset : Option Int := none
  /-- How many characters the fault spans. -/
  length : Int := 1
  /-- Whether the fault was declared fatal by whoever found it. -/
  grave : Bool := false
  /-- The calls in progress when the fault was found, innermost first. -/
  backtrace : Option (List Frame) := none
  deriving DecidableEq, Repr

namespace Diagnostic

/-- An overflow is always fatal. -/
def fatal (d : Diagnostic) : Bool :=
  d.grave || d.category == .overflow

def text (d : Diagnostic) : String :=
  let line := match d.line with
    | some n => "[line " ++ toString n ++ "] "
    | none => ""
  let place := if d.place = "" then "" else " " ++ d.place
  line ++ d.category.name ++ place ++ ": " ++ d.message

def atToken (category : Category) (token : Token) (message : String) : Diagnostic where
  category
  line := token.line
  message
  place := if token.kind = .eof then "at end" else "at '" ++ token.lexeme ++ "'"
  offset := token.offset
  length := max token.lexeme.length 1

def overflowMessage : String := "Stack overflow."

/-- An overflow that no place in the text accounts for. -/
def overflow : Diagnostic where
  category := .overflow
  line := none
  message := overflowMessage

end Diagnostic

end Lox
