import Lox.CommandLine

/-!
# The command

Reads arguments, files and the lines typed at the prompt, and writes what the session has on its
console.
-/

namespace Lox.Main

def steps : Nat := 1000000000000000000

/-- A clock that starts at the current time and never stands still. -/
def settingsNow : IO Settings := do
  let now ← IO.monoMsNow
  pure { clock := fun reading ↦ (now + reading + 1).toFloat / 1000 }

/-- Writes out what is on the console and clears it. -/
def flush (session : Session) : IO Session := do
  let out ← IO.getStdout
  out.putStr session.machine.console.out
  out.flush
  (← IO.getStderr).putStr session.machine.console.err
  pure (session.onConsole Console.cleared)

def runText (settings : Settings) (session : Session) (source : String) : IO UInt32 := do
  let (result, session) := session.run settings steps source false
  let _ ← flush session
  match result with
  | .ok result => pure result.outcome.exitCode.code.toUInt32
  | .error _ => pure 1

/-- Runs lines as they are typed. -/
partial def runPrompt (settings : Settings) (session : Session) : IO UInt32 := do
  let session ← flush session.awaitLine
  let line ← (← IO.getStdin).getLine
  if line.isEmpty then
    let _ ← flush session.leavePrompt
    pure 0
  else
    let line := if line.toList.getLast? == some '\n' then String.ofList line.toList.dropLast else line
    let (_, session) := session.run settings steps line true
    runPrompt settings (← flush session)

end Lox.Main

def main (arguments : List String) : IO UInt32 := do
  let settings ← Lox.Main.settingsNow
  match Lox.CommandLine.request arguments with
  | .usageError =>
    IO.eprintln "usage: [-h] [-c STRING] [--dbg FLAG] [FILE]"
    pure Lox.CommandLine.usageCode.toUInt32
  | .help =>
    IO.println "usage: [-h] [-c STRING] [--dbg FLAG] [FILE]"
    pure 0
  | .namelessFlag =>
    IO.eprintln "a flag has no name"
    pure 1
  | .run flags subject =>
    let session := Lox.Session.new flags true false
    match subject with
    | .text source => Lox.Main.runText settings session source
    | .file name =>
      match Lox.Text.ofBytes? (← IO.FS.readBinFile name) with
      | some source => Lox.Main.runText settings session source
      | none =>
        IO.eprintln "the file is not valid UTF-8"
        pure 1
    | .prompt => Lox.Main.runPrompt settings session
