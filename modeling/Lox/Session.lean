import Lox.Diagnostic.Reporter
import Lox.Machine.Execute
import Lox.Outcome
import Lox.Token.Scan
import Lox.Tree.Parse.Stmt

/-!
# Sessions

A session runs one text after another on the same machine, so that what one run declares is there
for the next.  All faults of a text's form are gathered before giving up, and nothing is executed
if there are any.
-/

namespace Lox

structure Session where
  reporter : Reporter
  machine : Machine

/-- What can keep a run from coming to a verdict. -/
inductive Escape where
  | returned (value : Value)
  | faulted (fault : Fault)
  /-- No level was left for writing the text of a tree. -/
  | exhausted
  | unfinished

namespace Session

def new (flags : Flags) (echoErrors coloured : Bool) : Session where
  reporter := { flags, echo := echoErrors }
  machine := .fresh { coloured } 0

def flags (session : Session) : Flags :=
  session.reporter.flags

def setFlags (session : Session) (flags : Flags) : Session :=
  { session with reporter := { session.reporter with flags } }

def restart (session : Session) : Session :=
  { session with machine := session.machine.renewed }

def globals (session : Session) : List (String × Value) :=
  session.machine.scopes.listing session.machine.globals

def has (session : Session) (flag : Flag) : Bool :=
  session.flags.contains flag

def onConsole (session : Session) (write : Console → Console) : Session :=
  { session with machine := { session.machine with console := write session.machine.console } }

def reportAll (session : Session) (ds : List Diagnostic) : Session :=
  let (reporter, console) := session.reporter.reportAll ds session.machine.console
  ⟨reporter, { session.machine with console }⟩

def verdict (session : Session) : Verdict :=
  .ofErrors session.reporter.errors.toList

/-- Whether a run stops because of the faults found so far. -/
def stops (session : Session) : Bool :=
  (stopCode? session.reporter.errors.toList).isSome

/-- The tokens of a source are written to the console if that is asked for. -/
def dumpTokens (session : Session) (tokens : List Token) : Session :=
  if session.has .dumpTokens then
    if session.has .shortTokens then
      session.onConsole (·.print ("\n".intercalate (tokens.map Token.shortListing)))
    else
      session.onConsole (·.dump "Token" (tokens.map Token.listing))
  else session

/-- The statements of a source without faults are written to the console if that is asked for, as far
as there is room for writing them: one that needs too many levels ends the run. -/
def dumpTree (settings : Settings) (statements : List Stmt) (session : Session) :
    Option Escape × Session :=
  if session.has .dumpTree && !session.reporter.faulty then
    let written := statements.takeWhile (·.textLevels ≤ settings.levels)
    if written.length = statements.length then
      (none, session.onConsole (·.dump "AST" (statements.map Stmt.text)))
    else
      (some .exhausted, session.onConsole fun console ↦
        (written.map Stmt.text).foldl Console.print (console.openDump "AST"))
  else (none, session)

/-- Executes a program, up to the first fault, which is reported. -/
def execute (settings : Settings) (steps : Nat) (echo : Bool) (statements : List Stmt)
    (session : Session) : Option Escape × Session :=
  let ⟨reporter, machine⟩ := session
  let settings := { settings with traced := reporter.flags.contains .trace }
  match Eval.program settings steps echo statements machine with
  | .ok () machine => (none, ⟨reporter, machine.idle⟩)
  | .error halt machine =>
    let session : Session := ⟨reporter, machine.idle⟩
    match halt with
    | .failed d => (none, session.reportAll [d])
    | .exhausted => (none, session.reportAll [Diagnostic.overflow])
    | .returned value => (some (.returned value), session)
    | .faulted fault => (some (.faulted fault), session)
    | .unfinished => (some .unfinished, session)

/-- Executes what has been parsed, unless there are faults or it is not asked for. -/
def runParsed (settings : Settings) (steps : Nat) (echo : Bool) (parsed : Parsed)
    (session : Session) : Except Escape Verdict × Session :=
  match (session.reportAll parsed.diagnostics).dumpTree settings parsed.statements with
  | (some escape, session) => (.error escape, session)
  | (none, session) =>
    if session.stops || session.has .noExecute then
      (.ok session.verdict, session)
    else
      match session.execute settings steps echo parsed.statements with
      | (some escape, session) => (.error escape, session)
      | (none, session) => (.ok session.verdict, session)

/-- Runs a text: it is scanned, parsed and executed. -/
def run (settings : Settings) (steps : Nat) (source : String) (echo : Bool) (session : Session) :
    Except Escape Verdict × Session :=
  let source := Text.joinReturns source
  let reporter := { session.reporter.reset with source := .ofString source }
  let scan := scan source
  let session := ({ session with reporter }.reportAll (scan.errors.map LexicalError.diagnostic))
    |>.dumpTokens scan.tokens
  if session.has .noParse then
    (.ok session.verdict, session)
  else
    let parsed := parse settings.levels scan.tokens
    if parsed.ranOut then
      (.error (.faulted .unmarkedEnd), session)
    else if parsed.pastEnd then
      (.error (.faulted .missingItem), session)
    else
      session.runParsed settings steps echo parsed

/-- Calls a global by name, without looking at the number of arguments. -/
def callGlobal (settings : Settings) (steps : Nat) (name : String) (arguments : List Value)
    (session : Session) : Except Halt Value × Session :=
  let ⟨reporter, machine⟩ := session
  let settings := { settings with traced := reporter.flags.contains .trace }
  let token : Token := { kind := .identifier, lexeme := name, line := 1 }
  let body : Eval Value := do
    let f ← Eval.lookup token
    Eval.apply settings steps settings.levels f arguments
  match body machine with
  | .ok value machine => (.ok value, ⟨reporter, machine⟩)
  | .error halt machine => (.error halt, ⟨reporter, machine⟩)

end Session

end Lox
