import Lox.Console
import Lox.Diagnostic
import Lox.Scope

/-!
# Machines

A machine is what a program is executed on: the scopes with the values in them, the scope that is
current, the calls in progress, and a console.  Executing something can end in several ways, and
the machine is there to be looked at after each of them.
-/

namespace Lox

structure Settings where
  /-- How many levels of nesting may be open at once, in a program and in its execution. -/
  levels : Nat := 81920
  /-- How many calls may be in progress at once. -/
  calls : Nat := 2048
  /-- The time at each reading of the clock. -/
  clock : Nat → Float := fun _ ↦ 0
  /-- Whether every statement and call is reported before it is executed. -/
  traced : Bool := false

structure Machine where
  scopes : Scopes
  globals : ScopeId
  /-- The scope in which names are looked up and declared. -/
  current : ScopeId
  /-- The calls in progress, the outermost first. -/
  frames : Array Frame := #[]
  /-- How many functions have been made. -/
  functions : Nat := 0
  /-- How often the clock has been read. -/
  readings : Nat := 0
  console : Console := {}

/-- Faults that no program read from a text can bring about. -/
inductive Fault where
  | unknownOperator
  | voidExpr
  | voidStmt
  /-- A value other than a function was called. -/
  | notFunction
  /-- A function of the machine was given arguments it does not take. -/
  | surplusArguments
  /-- An operation was applied to values it is not made for. -/
  | wrongOperands
  | zeroDivision
  /-- A table was asked for what is not in it. -/
  | missingEntry
  /-- A row was asked for an item it does not have. -/
  | missingItem
  /-- The tokens of the program had no end. -/
  | unmarkedEnd
  deriving DecidableEq, Repr

def Fault.message : Fault → String
  | .unknownOperator => "Unreachable code reached"
  | .voidExpr => "Interpreter does not implement visit() for Expr"
  | .voidStmt => "Interpreter does not implement visit() for Stmt"
  | .notFunction | .surplusArguments | .wrongOperands | .zeroDivision | .missingEntry
  | .missingItem | .unmarkedEnd => ""

/-- Why an execution stopped short. -/
inductive Halt where
  /-- A function returns. -/
  | returned (value : Value)
  | failed (error : Diagnostic)
  | faulted (fault : Fault)
  /-- No room is left for nesting any deeper. -/
  | exhausted
  /-- The steps allowed for the execution do not suffice. -/
  | unfinished

inductive RuntimeCause where
  | undefinedVariable (name : String)
  | operandNotNumber
  | operandsNotNumbers
  | operandsUnlike
  | divisionByZero
  | notCallable
  | wrongArity (expected found : Nat)
  deriving DecidableEq, Repr

def RuntimeCause.message : RuntimeCause → String
  | .undefinedVariable name => "Undefined variable '" ++ name ++ "'."
  | .operandNotNumber => "Operand must be a number."
  | .operandsNotNumbers => "Operands must be numbers."
  | .operandsUnlike => "Operands must be two numbers or two strings."
  | .divisionByZero => "Division by zero."
  | .notCallable => "Can only call functions."
  | .wrongArity expected found =>
    "Expected " ++ toString expected ++ " arguments but got " ++ toString found ++ "."

def RuntimeCause.diagnostic (cause : RuntimeCause) (token : Token) : Diagnostic :=
  .atToken .runtime token cause.message

abbrev Eval := EStateM Halt Machine

namespace Machine

/-- The machine with a new outermost scope for its globals, in which nothing is declared but the
functions it provides.  The scopes from before are kept, as the store of scopes only grows. -/
def renewed (m : Machine) : Machine :=
  let root := m.scopes.next
  { m with
    scopes := Native.all.foldl (fun scopes f ↦ scopes.define root f.name (.native f))
      (m.scopes.push none)
    globals := root
    current := root
    frames := #[] }

def fresh (console : Console) (readings : Nat) : Machine :=
  renewed { scopes := {}, globals := 0, current := 0, readings, console }

def opened (m : Machine) (enclosing : ScopeId) : Machine :=
  let scope := m.scopes.next
  { m with scopes := m.scopes.push enclosing, current := scope }

/-- The machine between two runs: no call is in progress and the globals are current. -/
def idle (m : Machine) : Machine :=
  { m with current := m.globals, frames := #[] }

end Machine

namespace Eval

def fail {α : Type} (cause : RuntimeCause) (token : Token) : Eval α :=
  throw (.failed (cause.diagnostic token))

def lookup (name : Token) : Eval Value := fun m ↦
  match m.scopes.get? m.current name.lexeme with
  | some value => .ok value m
  | none => fail (.undefinedVariable name.lexeme) name m

/-- Gives a new value to a name that is declared somewhere. -/
def assign (name : Token) (value : Value) : Eval Unit := fun m ↦
  match m.scopes.resolve? m.current name.lexeme with
  | some (owner, _) => .ok () { m with scopes := m.scopes.define owner name.lexeme value }
  | none => fail (.undefinedVariable name.lexeme) name m

def define (name : String) (value : Value) : Eval Unit :=
  modify fun m ↦ { m with scopes := m.scopes.define m.current name value }

/-- A fault that was found while `frames` were in progress, unless it is known where. -/
def located (frames : Array Frame) : Halt → Halt
  | .failed d => .failed { d with backtrace := some (d.backtrace.getD frames.toList.reverse) }
  | halt => halt

def popFrame : Eval Unit := fun m ↦
  if m.frames.isEmpty then .error (.faulted .missingItem) m
  else .ok () { m with frames := m.frames.pop }

/-- Fails if as many calls are in progress as may be. -/
def checkRoom (settings : Settings) (paren : Token) : Eval Unit := fun m ↦
  if settings.calls ≤ m.frames.size then
    .error (.failed (.atToken .overflow paren Diagnostic.overflowMessage)) m
  else .ok () m

/-- The value returned by `body`; nil if it comes to its end without returning. -/
@[inline]
def catchReturn {σ : Type} (body : EStateM Halt σ Unit) : EStateM Halt σ Value := fun s ↦
  match body s with
  | .ok () s => .ok (.atom .nil) s
  | .error (.returned value) s => .ok value s
  | .error halt s => .error halt s

/-- Makes a function of the current scope. -/
def makeClosure (name : Token) (params : List Token) (body : List Stmt) : Eval Value :=
  modifyGet fun m ↦
    (.closure ⟨m.functions, name.lexeme, params.map Token.lexeme, body, m.current⟩,
      { m with functions := m.functions + 1 })

def readClock (settings : Settings) : Eval Value :=
  modifyGet fun m ↦
    (.atom (.number (settings.clock m.readings)), { m with readings := m.readings + 1 })

def print (line : String) : Eval Unit :=
  modify fun m ↦ { m with console := m.console.print line }

@[inline]
def traceStep (settings : Settings) (step : Unit → String) : Eval Unit :=
  if settings.traced then modify fun m ↦ { m with console := m.console.trace (step ()) }
  else pure ()

end Eval

end Lox
