import Lox.Proofs.Machine.Operations

/-!
# The course of an execution

An execution takes a machine to another one, and what lies between the two is not seen in the end:
scopes that were entered have been left, and calls that were made are over.  A record is a host that
writes it down.  After each single operation, whenever a scope is entered or left, and whenever a job
is begun or done, it notes the machine as it is then, and the jobs that are being done.  It also
notes where faults are found.

That a recorded execution ends as the execution does is shown where two executions are compared.
-/

namespace Lox

open Stateful

/-- A machine in the course of an execution, and the jobs that are being done, the innermost
first. -/
structure Moment where
  path : List Job
  machine : Machine

/-- A machine on which something is executed, with all that has been noted, the latest first. -/
structure Record extends Moment where
  moments : List Moment
  /-- The faults that operations have found, and when. -/
  faults : List (Moment × Diagnostic)

namespace Record

def start (m : Machine) : Record :=
  ⟨⟨[], m⟩, [⟨[], m⟩], []⟩

def passed (record : Record) : List Machine :=
  record.moments.map Moment.machine

def noted (record : Record) : Record :=
  { record with moments := record.toMoment :: record.moments }

def reach (record : Record) (m : Machine) : Record :=
  { record with machine := m }.noted

def blame (record : Record) : Halt → Record
  | .failed d => { record with faults := (record.toMoment, d) :: record.faults }
  | _ => record

def begun (record : Record) (job : Job) : Record :=
  { record with path := job :: record.path }.noted

def done (record : Record) : Record :=
  { record.noted with path := record.path.tail }

end Record

abbrev Course := EStateM Halt Record

namespace Course

/-- The end of a course, with something done to the record. -/
def map {α : Type} (f : Record → Record) : EStateM.Result Halt Record α →
    EStateM.Result Halt Record α
  | .ok a record => .ok a (f record)
  | .error halt record => .error halt (f record)

def ended {α : Type} : EStateM.Result Halt Record α → EStateM.Result Halt Machine α
  | .ok a record => .ok a record.machine
  | .error halt record => .error halt record.machine

/-- The record goes on with the machine in which something ended. -/
def resume {α : Type} (record : Record) : EStateM.Result Halt Machine α →
    EStateM.Result Halt Record α
  | .ok a m => .ok a { record with machine := m }
  | .error halt m => .error halt { record with machine := m }

def once {α : Type} (operation : Eval α) : Course α := fun record ↦
  match operation record.machine with
  | .ok a m => .ok a (record.reach m)
  | .error halt m => .error halt ((record.reach m).blame halt)

/-- Opening a scope and entering it are noted one after the other. -/
def enter (record : Record) : Context → Record
  | .job job => record.begun job
  | .scope enclosing =>
    let m := Machine.enter (.scope enclosing) record.machine
    (record.reach { m with current := record.machine.current }).reach m
  | .call frame => { record with machine := Machine.enter (.call frame) record.machine }

def leave {α : Type} (result : EStateM.Result Halt Record α) (before : ScopeId) :
    Context → EStateM.Result Halt Record α
  | .job _ => map Record.done result
  | .scope enclosing =>
    map Record.noted
      (resume (final result) (Machine.leave (.scope enclosing) before (ended result)))
  | .call frame => resume (final result) (Machine.leave (.call frame) before (ended result))

instance : Host Record where
  perform := once
  current record := record.machine.current
  enter context record := enter record context
  leave context before result := leave result before context

abbrev program (settings : Settings) (steps : Nat) (echo : Bool) (statements : List Stmt) :
    Course Unit :=
  Eval.program settings steps echo statements

/-- A function is found by its name and applied. -/
abbrev applied (settings : Settings) (steps : Nat) (name : Token) (arguments : List Value) :
    Course Value := do
  let f ← once (Eval.lookup name)
  Eval.apply settings steps settings.levels f arguments

theorem final_ended {α : Type} (result : EStateM.Result Halt Record α) :
    final (ended result) = (final result).machine := by
  cases result <;> rfl

end Course

end Lox
