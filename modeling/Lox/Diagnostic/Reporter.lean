import Lox.Diagnostic.Excerpt
import Lox.Flag

/-!
# Reporters

A reporter collects the faults found during a run and writes them to the console as they come.
-/

namespace Lox

structure Reporter where
  flags : Flags := []
  /-- Whether faults are written at all. -/
  echo : Bool := true
  source : Source := {}
  /-- The faults of the current run in the order in which they were found. -/
  errors : Array Diagnostic := #[]

namespace Reporter

/-- Writes a fault: its text, the excerpt unless errors are reduced, and the backtrace if asked
for. -/
def write (reporter : Reporter) (d : Diagnostic) (console : Console) : Console :=
  let console :=
    if reporter.flags.contains .reducedErrors then console.report d.text
    else
      let console := console.report (console.emphasise .fault d.text)
      match reporter.source.excerpt? d with
      | some excerpt => console.report (excerpt.render console)
      | none => console
  if reporter.flags.contains .backtrace then
    (d.backtrace.getD []).foldl
      (fun console frame ↦
        console.report
          ("    in " ++ frame.name ++ "() called from line " ++ toString frame.line))
      console
  else console

def report (reporter : Reporter) (d : Diagnostic) (console : Console) : Reporter × Console :=
  ({ reporter with errors := reporter.errors.push d },
    if reporter.echo then reporter.write d console else console)

def reportAll (reporter : Reporter) (ds : List Diagnostic) (console : Console) :
    Reporter × Console :=
  ds.foldl (fun (reporter, console) d ↦ reporter.report d console) (reporter, console)

/-- Forgets the faults of earlier runs. -/
def reset (reporter : Reporter) : Reporter :=
  { reporter with errors := #[] }

def faulty (reporter : Reporter) : Bool :=
  !reporter.errors.isEmpty

end Reporter

end Lox
