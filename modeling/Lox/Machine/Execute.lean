import Lox.Machine.Host
import Lox.Machine.Operator
import Lox.Text.Line
import Lox.Tree.Text

/-!
# Execution

Expressions are evaluated and statements executed on a host, which is a machine unless an execution
is to be watched.

A program need not come to an end, so every execution is given a number of steps; if they do not
suffice it is left `unfinished`.  Apart from that it is given the number of levels that may be
opened below it: an expression and a statement open three, the inside of a block one more, and the
body of a function three.  A statement that is reported opens levels for its text, too.
-/

namespace Lox.Eval

open Host

def checkArity (arity : Nat) (values : List Value) (paren : Token) : Eval Unit :=
  if values.length = arity then pure () else fail (.wrongArity arity values.length) paren

def traceCall (settings : Settings) (name : String) (values : List Value) : Eval Unit :=
  traceStep settings fun _ ↦
    "call " ++ name ++ "(" ++ ", ".intercalate (values.map Value.source) ++ ")"

/-- Reports a statement that is about to be executed, by the first line of its text. -/
def traceStmt (settings : Settings) (s : Stmt) : Eval Unit :=
  if settings.traced then
    match Text.lines s.heading with
    | [] => throw (.faulted .missingItem)
    | line :: _ => modify fun m ↦ { m with console := m.console.trace line }
  else pure ()

/-- Fails if a statement is to be reported and there are not levels enough for its text. -/
def checkText {σ : Type} (settings : Settings) (levels : Nat) (s : Stmt) : EStateM Halt σ Unit :=
  if settings.traced && levels < s.textLevels then throw .exhausted else pure ()

variable {σ : Type} [Host σ]

def bindAll : List String → List Value → EStateM Halt σ Unit
  | name :: names, value :: values => do
    perform (define name value)
    bindAll names values
  | _, _ => pure ()

mutual

@[specialize]
def expr (settings : Settings) : (steps levels : Nat) → Expr → EStateM Halt σ Value
  | 0, _, _ => throw .unfinished
  | steps + 1, levels + 3, e => inside (.job ⟨.expr e, steps + 1, levels + 3⟩) do
    match e with
    | .literal value => pure (.atom value)
    | .var name => perform (lookup name)
    | .assign name value =>
      let value ← expr settings steps levels value
      perform (assign name value)
      pure value
    | .unary operator operand =>
      let value ← expr settings steps levels operand
      perform (unary operator value)
    | .binary operator left right =>
      let x ← expr settings steps levels left
      let y ← expr settings steps levels right
      perform (binary operator x y)
    | .logical operator left right =>
      let x ← expr settings steps levels left
      if x.truthy == (operator.kind == .kwOr) then
        pure x
      else
        expr settings steps levels right
    | .call callee paren arguments =>
      let f ← expr settings steps levels callee
      let values ← exprs settings steps levels arguments
      call settings steps levels f paren values
    | .grouping inner => expr settings steps levels inner
    | .void => throw (.faulted .voidExpr)
  | _, _, _ => throw .exhausted

@[specialize]
def exprs (settings : Settings) : (steps levels : Nat) → List Expr → EStateM Halt σ (List Value)
  | 0, _, _ => throw .unfinished
  | _ + 1, _, [] => pure []
  | steps + 1, levels, e :: es => do
    let value ← expr settings steps levels e
    let values ← exprs settings steps levels es
    pure (value :: values)

/-- The call of a value, closed by `paren`.  The number of arguments is checked first, and then
whether one more call can be in progress. -/
@[specialize]
def call (settings : Settings) :
    (steps levels : Nat) → Value → (paren : Token) → List Value → EStateM Halt σ Value
  | 0, _, _, _, _ => throw .unfinished
  | steps + 1, levels, f, paren, values => inside (.job ⟨.call f paren values, steps + 1, levels⟩) do
    match f.callable? with
    | none => perform (fail .notCallable paren)
    | some (name, arity) =>
      perform (checkArity arity values paren)
      perform (checkRoom settings paren)
      perform (traceCall settings name values)
      inside (.call ⟨name, paren.line⟩) (apply settings steps levels f values)

/-- A function applied to values, whose number is not checked: surplus values are dropped, and
parameters without a value are not declared. -/
@[specialize]
def apply (settings : Settings) :
    (steps levels : Nat) → Value → List Value → EStateM Halt σ Value
  | 0, _, _, _ => throw .unfinished
  | steps + 1, levels, f, values => inside (.job ⟨.apply f values, steps + 1, levels⟩) do
    match f with
    | .closure f =>
      inside (.scope f.scope) do
        bindAll f.params values
        catchReturn (stmts settings steps (levels - 3) f.body)
    | .native .clock =>
      if values.isEmpty then perform (readClock settings) else throw (.faulted .surplusArguments)
    | .atom _ => throw (.faulted .notFunction)

@[specialize]
def stmt (settings : Settings) : (steps levels : Nat) → Stmt → EStateM Halt σ Unit
  | 0, _, _ => throw .unfinished
  | steps + 1, levels + 3, s => inside (.job ⟨.stmt s, steps + 1, levels + 3⟩) do
    checkText settings (levels + 2) s
    perform (traceStmt settings s)
    match s with
    | .block body => inside (.scope none) (stmts settings steps (levels - 1) body)
    | .empty => pure ()
    | .expression value =>
      let _ ← expr settings steps levels value
    | .function name params body =>
      perform (define name.lexeme (← perform (makeClosure name params body)))
    | .branch condition yes no =>
      let value ← expr settings steps levels condition
      if value.truthy then
        stmt settings steps levels yes
      else
        match no with
        | some no => stmt settings steps levels no
        | none => pure ()
    | .print value =>
      let value ← expr settings steps levels value
      perform (print value.display)
    | .ret _ value =>
      match value with
      | some value => throw (.returned (← expr settings steps levels value))
      | none => throw (.returned (.atom .nil))
    | .declare name initial =>
      match initial with
      | some initial => perform (define name.lexeme (← expr settings steps levels initial))
      | none => perform (define name.lexeme (.atom .nil))
    | .loop condition body => loop settings steps levels condition body
    | .void => throw (.faulted .voidStmt)
  | _, _, _ => throw .exhausted

@[specialize]
def loop (settings : Settings) : (steps levels : Nat) → Expr → Stmt → EStateM Halt σ Unit
  | 0, _, _, _ => throw .unfinished
  | steps + 1, levels, condition, body => do
    let value ← expr settings steps levels condition
    if value.truthy then
      stmt settings steps levels body
      loop settings steps levels condition body

@[specialize]
def stmts (settings : Settings) : (steps levels : Nat) → List Stmt → EStateM Halt σ Unit
  | 0, _, _ => throw .unfinished
  | _ + 1, _, [] => pure ()
  | steps + 1, levels, s :: rest => do
    stmt settings steps levels s
    stmts settings steps levels rest

end

/-- Executes the statements of a program in order; with `echo`, the value of an expression that
stands alone is printed. -/
def program (settings : Settings) (steps : Nat) (echo : Bool) : List Stmt → EStateM Halt σ Unit
  | [] => pure ()
  | s :: rest => do
    match echo, s with
    | true, .expression value =>
      let value ← expr settings steps settings.levels value
      perform (print value.source)
    | _, s => stmt settings steps settings.levels s
    program settings steps echo rest

end Lox.Eval
