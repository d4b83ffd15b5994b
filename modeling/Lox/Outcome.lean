import Lox.Diagnostic

/-!
# Outcomes

How a run ended, judged by the faults found in it.
-/

namespace Lox

inductive ExitCode where
  | success
  | staticError
  | runtimeError
  deriving DecidableEq, Repr

def ExitCode.code : ExitCode → Nat
  | .success => 0
  | .staticError => 65
  | .runtimeError => 70

inductive Outcome where
  | success
  | staticError
  | runtimeError
  | fatalError
  deriving DecidableEq, Repr

namespace Outcome

def name : Outcome → String
  | .success => "SUCCESS"
  | .staticError => "STATIC_ERROR"
  | .runtimeError => "RUNTIME_ERROR"
  | .fatalError => "FATAL_ERROR"

def exitCode : Outcome → ExitCode
  | .success => .success
  | .staticError => .staticError
  | .runtimeError | .fatalError => .runtimeError

/-- An overflow outweighs a fault of execution, which outweighs any other. -/
def ofErrors (errors : List Diagnostic) : Outcome :=
  if errors.any (·.category == .overflow) then .fatalError
  else if errors.any (·.category == .runtime) then .runtimeError
  else if errors.isEmpty then .success
  else .staticError

end Outcome

/-- The code with which a run stops because of the faults found so far; it goes on if there are
none. -/
def stopCode? (errors : List Diagnostic) : Option ExitCode :=
  if errors.isEmpty then none
  else if errors.any (·.category.isStatic) then some .staticError
  else some .runtimeError

/-- How a run ended and the faults found in it. -/
structure Verdict where
  outcome : Outcome
  errors : List Diagnostic

def Verdict.ofErrors (errors : List Diagnostic) : Verdict :=
  ⟨.ofErrors errors, errors⟩

end Lox
